import Concord.Proofs.CheckedDepth

/-! A reference is looked up only where an object is built; that of a field which is no object is
not looked at. -/
namespace Concord

namespace FieldDoc

/-- A field is written inside another one, so many levels deep. -/
inductive Contains (root : FieldDoc) : Nat → FieldDoc → Prop
  | root : Contains root 0 root
  | member {n : Nat} {d : FieldDoc} {e : String × FieldDoc} (hd : Contains root n d)
    (he : e ∈ d.fields.getD []) : Contains root (n + 1) e.2
  | item {n : Nat} {d doc : FieldDoc} (hd : Contains root n d) (hdoc : doc ∈ d.items) :
    Contains root (n + 1) doc

/-- A field is written inside another one where fields are entered: members in an object without a
reference, and the items of an array. -/
inductive Inspects (root : FieldDoc) : Nat → FieldDoc → Prop
  | root : Inspects root 0 root
  | member {n : Nat} {d : FieldDoc} {e : String × FieldDoc} (hd : Inspects root n d)
    (htype : FieldType.ofName? d.type = some .object) (href : d.ref = none)
    (he : e ∈ d.fields.getD []) : Inspects root (n + 1) e.2
  | item {n : Nat} {d doc : FieldDoc} (hd : Inspects root n d)
    (htype : FieldType.ofName? d.type = some .array) (hdoc : doc ∈ d.items) : Inspects root (n + 1) doc

/-- All references of a field lead to one of the types. -/
def RefersInto (types : List (String × FieldDoc)) (d : FieldDoc) : Prop :=
  ∀ name ∈ d.ref, name ∈ types.map (·.1)

variable {types : List (String × FieldDoc)} {root d : FieldDoc} {n : Nat}

theorem Inspects.reaches (h : root.Inspects n d) :
    ∃ above, above.length = n ∧ root.Reaches types above d := by
  induction h with
  | root => exact ⟨[], rfl, .root⟩
  | @member n d e _ htype href he ih =>
    obtain ⟨above, hlength, hd⟩ := ih
    have hrefers : d.refersTo? = none := by simp [refersTo?, href]
    have hentry : e ∈ d.entries types := by simpa [entries, href] using he
    exact ⟨d :: above, by simp [hlength], .member hd htype (by simp [hrefers]) hentry⟩
  | @item n d doc _ htype hdoc ih =>
    obtain ⟨above, hlength, hd⟩ := ih
    exact ⟨d :: above, by simp [hlength], .item hd htype hdoc⟩

/-- Where members and items are given of fields only that are entered for them, all that is written is
entered. -/
theorem Contains.inspects (hplaced : ∀ n f, root.Contains n f → f.Placed) (h : root.Contains n d) :
    root.Inspects n d := by
  induction h with
  | root => exact .root
  | @member n d e hd he ih =>
    have hfields : d.fields.isSome = true := by
      cases hnone : d.fields with
      | none => simp [hnone] at he
      | some fields => rfl
    obtain ⟨htype, href⟩ := (hplaced n d hd).fields hfields
    exact .member ih htype href he
  | @item n d doc hd hdoc ih =>
    exact .item ih ((hplaced n d hd).items (Option.isSome_of_mem hdoc)) hdoc

end FieldDoc

/-- A field that is no object is built without a look at its reference. -/
theorem buildField_ref_of_not_object {types : List (String × FieldDoc)} {f : FieldDoc}
    (htype : FieldType.ofName? f.type ≠ some .object) (ref : Option String) (left : Nat)
    (visiting : List String) (path name : String) :
    buildField types left visiting path name { f with ref } =
      buildField types left visiting path name f := by
  have hscalar : buildScalar path name { f with ref } = buildScalar path name f := by
    simp only [buildScalar]
  rw [buildField_eq, buildAround, buildAround, hscalar]
  cases hs : buildScalar path name f with
  | error e => rfl
  | ok s =>
    rw [buildScalar_type hs] at htype
    cases hkind : s.type <;> simp_all [bind, Except.bind]

/-- In a document that is accepted, the objects where fields are entered refer to named types, down to
the depth of expansion; these are all the objects if members and items are given only there. The
reference of any other field can be replaced. -/
theorem references_declared {text path : String} {maxDepth : Nat} {d : ManifestDoc}
    (hread : ManifestDoc.read? text = some d)
    (haccepted : ∃ m, Manifest.parse text path maxDepth = .ok m) :
    (∀ root ∈ d.fieldTrees, ∀ n f, root.Inspects n f → n ≤ max maxDepth 1 →
        FieldType.ofName? f.type = some .object → f.RefersInto d.types) ∧
      ((∀ root ∈ d.fieldTrees, ∀ n f, root.Contains n f → f.Placed) →
        ∀ root ∈ d.fieldTrees, ∀ n f, root.Contains n f → n ≤ max maxDepth 1 →
          FieldType.ofName? f.type = some .object → f.RefersInto d.types) ∧
      ∀ f : FieldDoc, FieldType.ofName? f.type ≠ some .object → ∀ ref left visiting path name,
        buildField d.types left visiting path name { f with ref } =
          buildField d.types left visiting path name f := by
  have hinspected : ∀ root ∈ d.fieldTrees, ∀ n f, root.Inspects n f → n ≤ max maxDepth 1 →
      FieldType.ofName? f.type = some .object → f.RefersInto d.types := by
    intro root hroot n f hf hn htype name hname
    obtain ⟨above, rfl, hreaches⟩ := hf.reaches
    have hchecked := ((accepted_iff_checkedTo hread).mp haccepted).2 root hroot above f hreaches hn
    exact hchecked.ref name (FieldDoc.refersTo?_eq_some_iff.mpr ⟨htype, hname⟩)
  refine ⟨hinspected, ?_, fun f htype => buildField_ref_of_not_object htype⟩
  intro hplaced root hroot n f hf hn htype
  exact hinspected root hroot n f (hf.inspects (hplaced root hroot)) hn htype

/-- A note that refers to a type that is not there, and a crate with a lid of its own type. -/
def misplaced : List Char :=
  ["types: \x7bnote: \x7btype: string, ref: Nope\x7d, crate: \x7btype: object, ",
    "fields: \x7blid: \x7btype: object, ref: crate\x7d\x7d\x7d\x7d\n"].flatMap String.toList

/-- The reference of the note leads nowhere, though the document is accepted; that of the lid is looked
at. -/
theorem note_leads_nowhere : ∃ d, ManifestDoc.read? (String.ofList misplaced) = some d ∧
    (∃ m, Manifest.parse (String.ofList misplaced) "m" 8 = .ok m) ∧
      (∃ root ∈ d.fieldTrees, root.Contains 0 root ∧ ¬root.RefersInto d.types) ∧
      ∃ root ∈ d.fieldTrees, ∃ f, root.Inspects 1 f ∧ f.ref = some "crate" ∧ f.RefersInto d.types := by
  have hrun : ((ManifestDoc.read? (String.ofList misplaced)).any fun d =>
      (d.build 8 "m" (String.ofList misplaced)).isOk &&
        (d.fieldTrees.any fun root => root.ref.any fun name => name ∉ d.types.map (·.1)) &&
        d.fieldTrees.any fun root => FieldType.ofName? root.type == some .object && root.ref.isNone &&
          (root.fields.getD []).any fun e =>
            FieldType.ofName? e.2.type == some .object && e.2.ref == some "crate") = true := by
    rw [ManifestDoc.read?, String.toList_ofList]
    conv in Yaml.Document.read? _ =>
      unfold misplaced
      repeat rw [List.flatMap_cons, String.toList_ofList]
    decide +kernel
  obtain ⟨d, hread, hd⟩ := (Option.any_eq_true _ _).mp hrun
  simp only [Bool.and_eq_true, List.any_eq_true, Option.any_eq_true, beq_iff_eq,
    Option.isNone_iff_eq_none, decide_eq_true_eq] at hd
  obtain ⟨⟨hok, note, hnote, name, hname, hunknown⟩, crate, hcrate, hobject, e, he, hlid, hlidRef⟩ := hd
  rw [← parse_eq_build hread, isOk_iff] at hok
  have hentered : crate.Inspects 1 e.2 := .member .root hobject.1 hobject.2 he
  refine ⟨d, hread, hok, ⟨note, hnote, .root, fun h => hunknown (h name hname)⟩, ?_⟩
  exact ⟨crate, hcrate, e.2, hentered, hlidRef,
    (references_declared hread hok).1 crate hcrate 1 e.2 hentered (by decide) hlid⟩

end Concord
