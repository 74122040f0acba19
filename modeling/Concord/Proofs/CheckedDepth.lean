import Concord.Proofs.Unfolding

/-! Fields are checked while they are built, so a document is checked down to the depth of
expansion, and the depth does not matter where nothing is below it. -/
namespace Concord

namespace FieldDoc

/-- The named types that are entered on the way to a field. -/
def entered (above : List FieldDoc) : List String := above.filterMap (·.refersTo?)

theorem entered_cons (d : FieldDoc) (above : List FieldDoc) :
    entered (d :: above) = d.refersTo?.toList ++ entered above := by
  cases h : d.refersTo? <;> simp [entered, h]

theorem entered_cons_array {d : FieldDoc} (htype : FieldType.ofName? d.type = some .array)
    (above : List FieldDoc) : entered (d :: above) = entered above := by
  rw [entered_cons, show d.refersTo? = none by simp [refersTo?, htype], Option.toList_none,
    List.nil_append]

/-- A field that is inside another one when references are followed, with the fields on the way to
it, the nearest first. No type is entered inside itself. -/
inductive Reaches (types : List (String × FieldDoc)) (root : FieldDoc) :
    (above : List FieldDoc) → FieldDoc → Prop
  | root : Reaches types root [] root
  | member {above : List FieldDoc} {d : FieldDoc} {e : String × FieldDoc}
      (hd : Reaches types root above d) (htype : FieldType.ofName? d.type = some .object)
      (hfresh : ∀ name ∈ d.refersTo?, name ∉ entered above) (he : e ∈ d.entries types) :
      Reaches types root (d :: above) e.2
  | item {above : List FieldDoc} {d doc : FieldDoc} (hd : Reaches types root above d)
      (htype : FieldType.ofName? d.type = some .array) (hdoc : doc ∈ d.items) :
      Reaches types root (d :: above) doc

/-- A field is proper as far as it is looked at where expansion ends at the depth `limit`: it is sound
and refers to one of the named types, and above that depth its entries are named apart. -/
structure CheckedAt (types : List (String × FieldDoc)) (limit : Nat) (above : List FieldDoc)
    (d : FieldDoc) : Prop where
  sound : d.Sound
  ref : ∀ name ∈ d.refersTo?, name ∈ types.map (·.1)
  entries_apart : above.length < limit → FieldType.ofName? d.type = some .object →
    (∀ name ∈ d.refersTo?, name ∉ entered above) → ((d.entries types).map (·.1)).Nodup

/-- Every field inside a field is proper as far as it is looked at. -/
def CheckedTo (types : List (String × FieldDoc)) (limit : Nat) (root : FieldDoc) : Prop :=
  ∀ above d, root.Reaches types above d → above.length ≤ limit → d.CheckedAt types limit above

end FieldDoc

variable {name path : String}

section Step

variable {types : List (String × FieldDoc)} {visiting : List String} {d : FieldDoc}

/-- An object can be built if its reference leads to a type and its entries can be built, unless the
type is being expanded. -/
theorem objectBuilds_iff {inner? : Option FieldBuilder}
    (htype : FieldType.ofName? d.type = some .object) :
    ObjectBuilds types inner? visiting path d ↔
      (∀ name ∈ d.refersTo?, name ∈ types.map (·.1)) ∧
      ((∀ name ∈ d.refersTo?, name ∉ visiting) → ∀ inner ∈ inner?, ∃ cs,
        buildMembers inner (d.refersTo?.toList ++ visiting) path (d.entries types) = .ok cs) := by
  have hrefers : d.refersTo? = d.ref := by simp [FieldDoc.refersTo?, htype]
  rw [hrefers]
  cases href : d.ref with
  | none =>
    rw [objectBuilds_iff_of_no_ref href]
    cases hfields : d.fields with
    | none => simp [FieldDoc.entries, href, hfields, buildMembers_ok_iff]
    | some fields => simp [FieldDoc.entries, href, hfields]
  | some name =>
    cases hlookup : types.lookup name with
    | none =>
      have hunknown : name ∉ types.map (·.1) := fun h => by
        obtain ⟨target, htarget⟩ := exists_lookup_iff.mpr h
        simp [hlookup] at htarget
      refine iff_of_false (fun h => hunknown (h.ref name href)) fun h => hunknown (h.1 name rfl)
    | some target =>
      have hknown : name ∈ types.map (·.1) := exists_lookup_iff.mp ⟨target, hlookup⟩
      rw [objectBuilds_iff_of_lookup href hlookup, FieldDoc.entries_of_lookup href hlookup]
      simpa using fun _ => hknown

theorem buildField_ok_iff_step {left : Nat} :
    (∃ f, buildField types left visiting path name d = .ok f) ↔ d.Sound ∧
      (FieldType.ofName? d.type = some .object →
        (∀ name ∈ d.refersTo?, name ∈ types.map (·.1)) ∧
        ((∀ name ∈ d.refersTo?, name ∉ visiting) → ∀ n, left = n + 1 →
          ((d.entries types).map (·.1)).Nodup ∧ ∀ e ∈ d.entries types, ∃ c,
            buildField types n (d.refersTo?.toList ++ visiting) (path ++ "." ++ e.1) e.1 e.2 = .ok c)) ∧
      (FieldType.ofName? d.type = some .array → ∀ doc ∈ d.items, ∀ n, left = n + 1 → ∃ c,
        buildField types n visiting (path ++ "[]") "[]" doc = .ok c) := by
  rw [buildField_eq, buildAround_ok_iff]
  refine and_congr_right fun _ => and_congr (forall_congr' fun htype => ?_) ?_
  · rw [objectBuilds_iff htype]
    simp only [forall_mem_innerBuilder?_iff, buildMembers_ok_iff]
  · simp only [forall_mem_innerBuilder?_iff]

end Step

namespace FieldDoc

variable {types : List (String × FieldDoc)} {limit : Nat} {root : FieldDoc}

/-- What is reached down to the limit is built while its root is built. -/
theorem Reaches.built {above : List FieldDoc} {d : FieldDoc} (hd : root.Reaches types above d)
    (hlength : above.length ≤ limit) (h : ∃ f, buildField types limit [] path name root = .ok f) :
    ∃ left path name, above.length + left = limit ∧
      ∃ f, buildField types left (entered above) path name d = .ok f := by
  induction hd with
  | root => exact ⟨limit, path, name, Nat.zero_add limit, h⟩
  | @member above d e hd htype hfresh he ih =>
    rw [List.length_cons] at hlength
    obtain ⟨left, path, name, hleft, hbuilt⟩ := ih (by omega)
    obtain ⟨n, rfl⟩ : ∃ n, left = n + 1 := Nat.exists_eq_add_one_of_ne_zero (by omega)
    obtain ⟨-, hobject, -⟩ := buildField_ok_iff_step.mp hbuilt
    have hentry := ((hobject htype).2 hfresh n rfl).2 e he
    rw [← entered_cons] at hentry
    exact ⟨n, _, _, by rw [List.length_cons]; omega, hentry⟩
  | @item above d doc hd htype hdoc ih =>
    rw [List.length_cons] at hlength
    obtain ⟨left, path, name, hleft, hbuilt⟩ := ih (by omega)
    obtain ⟨n, rfl⟩ : ∃ n, left = n + 1 := Nat.exists_eq_add_one_of_ne_zero (by omega)
    obtain ⟨-, -, harray⟩ := buildField_ok_iff_step.mp hbuilt
    have hitem := harray htype doc hdoc n rfl
    rw [← entered_cons_array htype] at hitem
    exact ⟨n, _, _, by rw [List.length_cons]; omega, hitem⟩

/-- What is reached can be built, if all that is reached is proper as far as it is looked at. -/
theorem CheckedTo.builds (h : root.CheckedTo types limit) {left : Nat} {above : List FieldDoc}
    {d : FieldDoc} (hd : root.Reaches types above d) (hleft : above.length + left = limit)
    (path name : String) : ∃ f, buildField types left (entered above) path name d = .ok f := by
  induction left generalizing above d path name with
  | zero =>
    have hchecked := h above d hd (by omega)
    exact buildField_ok_iff_step.mpr ⟨hchecked.sound, fun _ => ⟨hchecked.ref, by simp⟩, by simp⟩
  | succ n ih =>
    have hchecked := h above d hd (by omega)
    have hnext (e : FieldDoc) : (e :: above).length + n = limit := by
      rw [List.length_cons]
      omega
    refine buildField_ok_iff_step.mpr ⟨hchecked.sound, fun htype => ⟨hchecked.ref, ?_⟩, ?_⟩
    · intro hfresh k hk
      obtain rfl : n = k := by omega
      refine ⟨hchecked.entries_apart (by omega) htype hfresh, fun e he => ?_⟩
      rw [← entered_cons]
      exact ih (.member hd htype hfresh he) (hnext d) _ _
    · intro htype doc hdoc k hk
      obtain rfl : n = k := by omega
      rw [← entered_cons_array htype]
      exact ih (.item hd htype hdoc) (hnext d) _ _

/-- A field can be built exactly if all that is reached from it is proper as far as it is looked
at. -/
theorem buildField_ok_iff :
    (∃ f, buildField types limit [] path name root = .ok f) ↔ root.CheckedTo types limit := by
  constructor
  · intro h above d hd hlength
    obtain ⟨left, path, name, hleft, hbuilt⟩ := hd.built hlength h
    obtain ⟨hsound, hobject, -⟩ := buildField_ok_iff_step.mp hbuilt
    refine ⟨hsound, fun ref href => ?_, fun hlt htype hfresh => ?_⟩
    · exact (hobject (refersTo?_eq_some_iff.mp href).1).1 ref href
    · obtain ⟨n, rfl⟩ : ∃ n, left = n + 1 := Nat.exists_eq_add_one_of_ne_zero (by omega)
      exact ((hobject htype).2 hfresh n rfl).1
  · intro h
    exact h.builds .root (Nat.zero_add limit) path name

theorem CheckedTo.anti {limit' : Nat} (h : root.CheckedTo types limit') (hle : limit ≤ limit') :
    root.CheckedTo types limit := by
  intro above d hd hlength
  have hchecked := h above d hd (by omega)
  exact ⟨hchecked.sound, hchecked.ref, fun hlt => hchecked.entries_apart (by omega)⟩

/-- What is looked at under a higher limit only: the fields from the lower limit on. -/
theorem checkedTo_iff_of_le {limit' : Nat} (hle : limit ≤ limit') :
    root.CheckedTo types limit' ↔ root.CheckedTo types limit ∧ ∀ above d,
      root.Reaches types above d → limit ≤ above.length → above.length ≤ limit' →
        d.CheckedAt types limit' above := by
  constructor
  · intro h
    exact ⟨h.anti hle, fun above d hd _ hlength => h above d hd hlength⟩
  · rintro ⟨hlow, hhigh⟩ above d hd hlength
    by_cases hbelow : limit ≤ above.length
    · exact hhigh above d hd hbelow hlength
    · have hchecked := hlow above d hd (by omega)
      exact ⟨hchecked.sound, hchecked.ref, fun _ => hchecked.entries_apart (by omega)⟩

end FieldDoc

/-- A document is accepted exactly if it is outlined and its fields are proper down to the depth of
expansion. -/
theorem accepted_iff_checkedTo {text path : String} {maxDepth : Nat} {d : ManifestDoc}
    (hread : ManifestDoc.read? text = some d) :
    (∃ m, Manifest.parse text path maxDepth = .ok m) ↔
      d.Outlined ∧ ∀ root ∈ d.fieldTrees, root.CheckedTo d.types (max maxDepth 1) := by
  rw [parse_eq_build hread, ManifestDoc.forall_mem_fieldTrees_iff]
  refine ManifestDoc.build_ok_iff.trans (and_congr_right fun _ => and_congr ?_ ?_)
  · exact forall₂_congr fun t _ => FieldDoc.buildField_ok_iff
  · refine forall₂_congr fun c _ => forall₂_congr fun e _ => forall₂_congr fun p _ => ?_
    exact forall₂_congr fun f _ => FieldDoc.buildField_ok_iff

/-- Of two depths of expansion, a document is accepted at the higher one exactly if it is accepted at
the lower one and every field that is reached between the two is proper. So a document that is not
deeper than both is accepted at both or at none. -/
theorem accepted_deeper_iff (path : String) {text : String} {maxDepth maxDepth' : Nat} {d : ManifestDoc}
    (hread : ManifestDoc.read? text = some d) (hle : maxDepth ≤ maxDepth') :
    ((∃ m, Manifest.parse text path maxDepth' = .ok m) ↔
      (∃ m, Manifest.parse text path maxDepth = .ok m) ∧
        ∀ root ∈ d.fieldTrees, ∀ above f, root.Reaches d.types above f →
          max maxDepth 1 ≤ above.length → above.length ≤ max maxDepth' 1 →
            f.CheckedAt d.types (max maxDepth' 1) above) ∧
    ((∀ root ∈ d.fieldTrees, ∀ f ∈ root.all, f.Placed) →
      (∀ root ∈ d.fieldTrees, root.nesting ≤ maxDepth) →
        ((∃ m, Manifest.parse text path maxDepth' = .ok m) ↔
          ∃ m, Manifest.parse text path maxDepth = .ok m)) := by
  have hmax : max maxDepth 1 ≤ max maxDepth' 1 := by omega
  constructor
  · rw [accepted_iff_checkedTo hread, accepted_iff_checkedTo hread, and_assoc]
    refine and_congr_right fun _ => ?_
    simp only [FieldDoc.checkedTo_iff_of_le hmax]
    exact forall₂_and
  · intro hplaced hnesting
    have hbuild (depth : Nat) (hdepth : maxDepth ≤ depth) :
        (∃ m, Manifest.parse text path depth = .ok m) ↔ d.WellFormed := by
      rw [parse_eq_build hread]
      refine ⟨fun h => ?_, fun h => ManifestDoc.build_of_wellFormed h depth path text⟩
      obtain ⟨m, hm⟩ := h
      exact ManifestDoc.wellFormed_of_build hplaced
        (fun root hroot => Nat.le_trans (hnesting root hroot) hdepth) hm
    rw [hbuild maxDepth' hle, hbuild maxDepth (Nat.le_refl _)]

/-- A type with a field of a type that is unknown, two levels inside. -/
def buried : List Char :=
  ["types: \x7bo: \x7btype: object, fields: \x7bp: \x7btype: object, ",
    "fields: \x7bq: \x7btype: text\x7d\x7d\x7d\x7d\x7d\x7d\n"].flatMap String.toList

/-- The field is met at the depth two only, where the document is refused. -/
theorem buried_unseen :
    ∃ d, ManifestDoc.read? (String.ofList buried) = some d ∧
      (∃ m, Manifest.parse (String.ofList buried) "m" 1 = .ok m) ∧
      (¬∃ m, Manifest.parse (String.ofList buried) "m" 2 = .ok m) ∧
      ∃ root ∈ d.fieldTrees, ∃ above f, root.Reaches d.types above f ∧ 1 ≤ above.length ∧
        above.length ≤ 2 ∧ ¬f.CheckedAt d.types 2 above := by
  have hrun : ((ManifestDoc.read? (String.ofList buried)).any fun d =>
      (d.build 1 "m" (String.ofList buried)).isOk &&
        !(d.build 2 "m" (String.ofList buried)).isOk) = true := by
    rw [ManifestDoc.read?, String.toList_ofList]
    conv in Yaml.Document.read? _ =>
      unfold buried
      repeat rw [List.flatMap_cons, String.toList_ofList]
    decide +kernel
  obtain ⟨d, hread, hd⟩ := (Option.any_eq_true _ _).mp hrun
  obtain ⟨hlow, hhigh⟩ := Bool.and_eq_true_iff.mp hd
  rw [← parse_eq_build hread, isOk_iff] at hlow
  rw [← parse_eq_build hread, Bool.not_eq_true', ← Bool.not_eq_true, isOk_iff] at hhigh
  refine ⟨d, hread, hlow, hhigh, ?_⟩
  by_contra hall
  push Not at hall
  exact hhigh ((accepted_deeper_iff "m" hread (by decide)).1.mpr ⟨hlow, hall⟩)

end Concord
