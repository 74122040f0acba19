import Concord.Proofs.Unfolding

/-! A field that refers to a type is expanded with the fields that are given of the type itself.
Where the type refers to another one in its turn, the field stays empty. -/
namespace Concord

variable {name path path' : String} {d : FieldDoc} {visiting : List String} {f g : FieldSchema}
  {left left' limit : Nat}

namespace FieldSchema

/-- A node without what is inside it, and as if it were not cut off. -/
def head (f : FieldSchema) : FieldSchema :=
  { f with children := [], items := none, truncated := false }

/-- A tree is another one, of which some branches may be cut off. -/
inductive Prunes : FieldSchema → FieldSchema → Prop
  | cut {f g : FieldSchema} (hhead : f.head = g.head) (hf : f.truncated = true)
      (hchildren : f.children = []) (hitems : f.items = none) : Prunes f g
  | kept {f g : FieldSchema} (hhead : f.head = g.head) (hf : f.truncated = false)
      (hg : g.truncated = false) (hchildren : List.Forall₂ Prunes f.children g.children)
      (hitems : Option.Rel Prunes f.items g.items) : Prunes f g

end FieldSchema

theorem buildRange_at {r : RangeDoc} {range : Range} (h : buildRange path r = .ok range)
    (path' : String) : buildRange path' r = .ok range := by
  unfold buildRange at h ⊢
  dsimp only at h ⊢
  split at h
  · simp at h
  · split at h
    · simp at h
    · split at h <;> simp_all
    · simp_all

/-- Without what is inside it, a field is the same wherever it is built. -/
theorem buildScalar_unique (hf : buildScalar path name d = .ok f)
    (hg : buildScalar path' name d = .ok g) : f = g := by
  obtain ⟨type, range, htype, hrange, rfl⟩ := buildScalar_cases hf
  obtain ⟨type', range', htype', hrange', rfl⟩ := buildScalar_cases hg
  obtain rfl : type = type' := Option.some.inj (htype.symm.trans htype')
  obtain rfl : range = range' := by
    cases hd : d.range with
    | none =>
      rw [hd] at hrange hrange'
      exact Except.ok.inj (hrange.symm.trans hrange')
    | some r =>
      rw [hd] at hrange hrange'
      obtain ⟨a, ha, hrange⟩ := bind_eq_ok hrange
      obtain ⟨b, hb, hrange'⟩ := bind_eq_ok hrange'
      obtain rfl : a = b := Except.ok.inj ((buildRange_at ha path').symm.trans hb)
      exact Except.ok.inj (hrange.symm.trans hrange')
  rfl

theorem forall₂_of_common {α β γ : Type} {R : α → β → Prop} {S : α → γ → Prop} {T : β → γ → Prop}
    {as : List α} {bs : List β} {cs : List γ} (hR : List.Forall₂ R as bs) (hS : List.Forall₂ S as cs)
    (hT : ∀ a b c, R a b → S a c → T b c) : List.Forall₂ T bs cs := by
  induction hR generalizing cs with
  | nil =>
    cases hS
    exact .nil
  | cons hab _ ih =>
    cases hS with
    | cons hac hS => exact .cons (hT _ _ _ hab hac) (ih hS)

section Prunes

variable {types : List (String × FieldDoc)}

/-- The step for two places, given that what is built inside is cut off likewise. -/
theorem prunes_of_step {visiting visiting' : List String} {s f g : FieldSchema} (hleft : left ≤ left')
    (hvisiting : visiting' ⊆ visiting) (hs : buildScalar path name d = .ok s)
    (hf : BuildStep types (innerBuilder? types left) visiting path d s f)
    (hg : BuildStep types (innerBuilder? types left') visiting' path' d s g)
    (hinner : ∀ n n', left = n + 1 → left' = n' + 1 → ∀ {visiting visiting' path path' name d f g},
      visiting' ⊆ visiting → buildField types n visiting path name d = .ok f →
        buildField types n' visiting' path' name d = .ok g → f.Prunes g) :
    f.Prunes g := by
  have htype := buildScalar_type hs
  obtain ⟨-, hchildren, hitems⟩ := buildScalar_eq_ok hs
  obtain ⟨href, huncut⟩ := buildScalar_uncut hs
  cases hf with
  | plain hopens =>
    cases hg with
    | plain =>
      refine .kept rfl huncut huncut ?_ ?_
      · rw [hchildren]
        exact .nil
      · rw [hitems]
        exact .none
    | cut hopens' => simp [hopens] at hopens'
    | members _ _ hopens' => simp [hopens] at hopens'
    | item _ _ hopens' => simp [hopens] at hopens'
  | cut hopens hcut =>
    refine .cut ?_ rfl hchildren hitems
    cases hg with
    | plain hopens' => simp [hopens] at hopens'
    | cut => rfl
    | members => rfl
    | item harray => simp [FieldSchema.head, FieldDoc.refersTo?, htype, harray, href]
  | members hobject hsome hopens hfresh hmembers =>
    obtain ⟨n, hn, rfl⟩ := innerBuilder?_eq_some_iff.mp hsome
    cases hg with
    | plain hopens' => simp [hopens] at hopens'
    | cut _ hcut =>
      rcases hcut with hnone | ⟨name, hname, hmem⟩
      · rw [innerBuilder?_eq_none_iff] at hnone
        omega
      · exact absurd (hvisiting hmem) (hfresh name hname)
    | members _ hsome' _ _ hmembers' =>
      obtain ⟨n', hn', rfl⟩ := innerBuilder?_eq_some_iff.mp hsome'
      refine .kept rfl huncut huncut ?_ ?_
      · refine forall₂_of_common (forall₂_of_buildMembers hmembers) (forall₂_of_buildMembers hmembers') ?_
        intro e c c' hc hc'
        have hsub : d.refersTo?.toList ++ visiting' ⊆ d.refersTo?.toList ++ visiting :=
          List.append_subset.mpr
            ⟨List.subset_append_left _ _, List.subset_append_of_subset_right _ hvisiting⟩
        exact hinner n n' hn hn' hsub hc hc'
      · rw [hitems]
        exact .none
    | item harray => simp [hobject] at harray
  | item harray hsome hopens hdoc hitem =>
    obtain ⟨n, hn, rfl⟩ := innerBuilder?_eq_some_iff.mp hsome
    cases hg with
    | plain hopens' => simp [hopens] at hopens'
    | cut _ hcut =>
      rcases hcut with hnone | ⟨name, hname, -⟩
      · rw [innerBuilder?_eq_none_iff] at hnone
        omega
      · simp [FieldDoc.refersTo?, htype, harray] at hname
    | members hobject => simp [hobject] at harray
    | item _ hsome' _ hdoc' hitem' =>
      obtain ⟨n', hn', rfl⟩ := innerBuilder?_eq_some_iff.mp hsome'
      obtain rfl := Option.some.inj (hdoc.symm.trans hdoc')
      refine .kept rfl huncut huncut ?_ ?_
      · rw [hchildren]
        exact .nil
      · exact .some (hinner n n' hn hn' hvisiting hitem hitem')

/-- A field that is built deeper and inside more types is cut off earlier, and is the same else. -/
theorem prunes_of_buildField {visiting visiting' : List String} (hleft : left ≤ left')
    (hvisiting : visiting' ⊆ visiting) (hf : buildField types left visiting path name d = .ok f)
    (hg : buildField types left' visiting' path' name d = .ok g) : f.Prunes g := by
  induction left using Nat.strongRecOn generalizing left' visiting visiting' path path' name d f g with
  | ind left ih =>
    obtain ⟨s, hs, hstep⟩ := buildStep_of_buildField hf
    obtain ⟨s', hs', hstep'⟩ := buildStep_of_buildField hg
    obtain rfl := buildScalar_unique hs hs'
    refine prunes_of_step hleft hvisiting hs hstep hstep' ?_
    intro n n' hn hn' visiting visiting' path path' name d f g hsub hf hg
    exact ih n (by omega) (by omega) hsub hf hg

end Prunes

section Transparent

variable {types : List (String × FieldDoc)}

theorem forall₂_entries (h : buildField types left visiting path name d = .ok f)
    (hobject : f.type = .object) (huncut : f.truncated = false) :
    List.Forall₂ (fun e c => ∃ n path, left = n + 1 ∧
      buildField types n (d.refersTo?.toList ++ visiting) path e.1 e.2 = .ok c)
      (d.entries types) f.children := by
  obtain ⟨s, hs, hstep⟩ := buildStep_of_buildField h
  have htype := buildScalar_type hs
  obtain ⟨-, hchildren, -⟩ := buildScalar_eq_ok hs
  cases hstep with
  | plain hopens =>
    rw [hobject] at htype
    rw [hchildren, FieldDoc.entries_of_closed hopens htype]
    exact .nil
  | cut => simp at huncut
  | members _ hinner _ _ hmembers =>
    obtain ⟨n, rfl, rfl⟩ := innerBuilder?_eq_some_iff.mp hinner
    exact (forall₂_of_buildMembers hmembers).imp fun e c hc => ⟨n, _, rfl, hc⟩
  | item harray => simp [harray] at hobject

theorem exists_target {path name ref : String}
    (h : buildField types left visiting path name d = .ok f) (href : d.refersTo? = some ref) :
    ∃ target, types.lookup ref = some target ∧ d.entries types = target.fields.getD [] := by
  rw [buildField_eq] at h
  obtain ⟨htype, href⟩ := FieldDoc.refersTo?_eq_some_iff.mp href
  have hobject := (buildAround_ok_iff.mp ⟨f, h⟩).2.1 htype
  obtain ⟨target, hlookup⟩ := exists_lookup_iff.mpr (hobject.ref ref href)
  exact ⟨target, hlookup, FieldDoc.entries_of_lookup href hlookup⟩

theorem uncut_of_root {root : FieldDoc} {tree : FieldSchema} (hlimit : 1 ≤ limit)
    (h : buildField types limit [] path name root = .ok tree) : tree.truncated = false := by
  by_contra hcut
  have hwhere := (FieldSchema.StandsFor.root.exactAt h).truncated.mp (by simpa using hcut)
  simp only [List.length_nil, FieldSchema.refs, List.filterMap_nil, List.not_mem_nil, false_or] at hwhere
  omega

/-- The members that are built from the fields of a type are those of the type exactly if it does not
refer to a further type with fields. -/
theorem prunes_type_iff {t : FieldDoc} {children : List FieldSchema} {type : FieldSchema}
    (hleft : left ≤ limit) (hlimit : 1 ≤ limit)
    (hmembers : List.Forall₂ (fun e c => ∃ n path, left = n + 1 ∧
      buildField types n visiting path e.1 e.2 = .ok c) (t.fields.getD []) children)
    (htype : buildField types limit [] path name t = .ok type)
    (hplaced : t.fields.isSome = true → FieldType.ofName? t.type = some .object ∧ t.ref = none) :
    List.Forall₂ FieldSchema.Prunes children type.children ↔
      ∀ other ∈ t.refersTo?, ∀ u ∈ types.lookup other, u.fields.getD [] = [] := by
  have hexact := FieldSchema.StandsFor.root.exactAt htype
  have huncut := uncut_of_root hlimit htype
  cases hrefers : t.refersTo? with
  | none =>
    refine iff_of_true ?_ (by simp)
    by_cases hobject : type.type = .object
    · -- the fields are given in place, and both are built from them
      have href : t.ref = none := by
        by_contra hsome
        obtain ⟨other, hother⟩ := Option.ne_none_iff_exists'.mp hsome
        rw [FieldDoc.refersTo?_eq_some_iff.mpr ⟨hobject ▸ hexact.type, hother⟩] at hrefers
        cases hrefers
      have hown := forall₂_entries htype hobject huncut
      rw [show t.entries types = t.fields.getD [] by simp [FieldDoc.entries, href], hrefers] at hown
      refine forall₂_of_common hmembers hown ?_
      rintro e c c' ⟨n, path, hn, hc⟩ ⟨n', path', hn', hc'⟩
      exact prunes_of_buildField (by omega) (by simp) hc hc'
    · have hfields : t.fields = none := by
        by_contra hsome
        have hkind := (hplaced (Option.isSome_iff_ne_none.mpr hsome)).1
        rw [hexact.type] at hkind
        exact hobject (Option.some.inj hkind)
      rw [hfields] at hmembers
      rw [List.forall₂_nil_left_iff.mp hmembers, hexact.only_members hobject]
      exact .nil
  | some other =>
    -- the fields of the further type are those of the type, but not of what refers to the type
    obtain ⟨hkind, href⟩ := FieldDoc.refersTo?_eq_some_iff.mp hrefers
    have hobject : type.type = .object := Option.some.inj (hexact.type.symm.trans hkind)
    have hfields : t.fields = none := by
      by_contra hsome
      rw [(hplaced (Option.isSome_iff_ne_none.mpr hsome)).2] at href
      cases href
    rw [hfields] at hmembers
    rw [List.forall₂_nil_left_iff.mp hmembers, List.forall₂_nil_left_iff, ← List.map_eq_nil_iff,
      hexact.members huncut hobject, List.map_eq_nil_iff]
    cases hlookup : types.lookup other with
    | none => simp [FieldDoc.entries, href, hlookup]
    | some u => simp [FieldDoc.entries_of_lookup href hlookup, hlookup]

end Transparent

/-- A field that refers to a type and is not cut off has a member for each field that is given of the
type itself. Where fields are given of objects without a reference only, these are the members of the
type, up to what is cut off, exactly if the type does not refer to a further type with fields. -/
theorem ref_transparent_iff {text path place name ref : String} {maxDepth : Nat} {d : ManifestDoc}
    {m : Manifest} {root : FieldDoc} {tree f : FieldSchema} {above : List FieldSchema}
    (hread : ManifestDoc.read? text = some d) (hparse : Manifest.parse text path maxDepth = .ok m)
    (htree : (d.expansion maxDepth).field place name root = .ok tree) (hf : tree.Holds above f)
    (href : f.ref = some ref) (huncut : f.truncated = false) :
    ∃ t type, d.types.lookup ref = some t ∧
      (d.expansion maxDepth).field ("types." ++ ref) ref t = .ok type ∧
      f.children.map (·.name) = (t.fields.getD []).map (·.1) ∧
      ((t.fields.isSome = true → FieldType.ofName? t.type = some .object ∧ t.ref = none) →
        (List.Forall₂ FieldSchema.Prunes f.children type.children ↔
          ∀ other ∈ t.refersTo?, ∀ u ∈ d.types.lookup other, u.fields.getD [] = [])) := by
  rw [parse_eq_build hread] at hparse
  obtain ⟨-, htypes, -⟩ := ManifestDoc.build_ok_iff.mp ⟨m, hparse⟩
  -- the field that the node stands for, and the type that it refers to
  obtain ⟨fd, hstands⟩ := (FieldSchema.unfolds_of_buildField htree).total above f hf
  obtain ⟨left, path, name, hleft, hbuilt⟩ := hstands.built htree
  have hexact := hstands.exactAt htree
  obtain ⟨t, hlookup, hentries⟩ := exists_target hbuilt (hexact.ref ▸ href)
  obtain ⟨type, htype⟩ := htypes (ref, t) (mem_of_lookup hlookup)
  have hobject : f.type = .object := by
    have hkind := (FieldDoc.refersTo?_eq_some_iff.mp (hexact.ref ▸ href)).1
    exact Option.some.inj (hexact.type.symm.trans hkind)
  have hmembers := forall₂_entries hbuilt hobject huncut
  rw [hentries] at hmembers
  refine ⟨t, type, hlookup, htype, ?_, fun hplaced => ?_⟩
  · rw [hexact.members huncut hobject, hentries]
  · have hle : left ≤ (d.expansion maxDepth).maxDepth := by omega
    exact prunes_type_iff hle (Nat.le_max_right _ _) hmembers htype hplaced

/-- A type that is another name of a type with a field, and an object with a member of it. -/
def renamed : List Char :=
  ["types: \x7bo: \x7btype: object, fields: \x7bp: \x7btype: object, ref: a\x7d\x7d\x7d, ",
    "a: \x7btype: object, ref: b\x7d, ",
    "b: \x7btype: object, fields: \x7bq: \x7btype: str\x7d\x7d\x7d\x7d\n"].flatMap String.toList

/-- The member is not cut off, and yet it has not what the type has. -/
theorem renamed_stays_empty :
    ∃ d m, ManifestDoc.read? (String.ofList renamed) = some d ∧
      Manifest.parse (String.ofList renamed) "m" 8 = .ok m ∧
      ∃ o tree f, d.types.lookup "o" = some o ∧ (d.expansion 8).field "o" "o" o = .ok tree ∧
        f ∈ tree.children ∧ f.ref = some "a" ∧ f.truncated = false ∧
        ∃ t type, d.types.lookup "a" = some t ∧
          (d.expansion 8).field ("types." ++ "a") "a" t = .ok type ∧
          ¬List.Forall₂ FieldSchema.Prunes f.children type.children := by
  have hrun : ((ManifestDoc.read? (String.ofList renamed)).any fun d =>
      (d.build 8 "m" (String.ofList renamed)).isOk &&
      ((d.types.lookup "o").any fun o => ((d.expansion 8).field "o" "o" o).toOption.any fun tree =>
        tree.children.any fun f => f.ref == some "a" && !f.truncated) &&
      ((d.types.lookup "a").any fun t => t.fields.isNone && t.refersTo? == some "b") &&
      (d.types.lookup "b").any fun u => !(u.fields.getD []).isEmpty) = true := by
    rw [ManifestDoc.read?, String.toList_ofList]
    conv in Yaml.Document.read? _ =>
      unfold renamed
      repeat rw [List.flatMap_cons, String.toList_ofList]
    decide +kernel
  have htoOption {x : Checked FieldSchema} {f : FieldSchema} : x.toOption = some f ↔ x = .ok f := by
    cases x <;> simp [Except.toOption]
  obtain ⟨d, hread, hd⟩ := (Option.any_eq_true _ _).mp hrun
  simp only [Bool.and_eq_true, Option.any_eq_true, List.any_eq_true, beq_iff_eq, Bool.not_eq_true',
    Option.isNone_iff_eq_none, htoOption, List.isEmpty_eq_false_iff] at hd
  obtain ⟨⟨⟨hok, o, ho, tree, htree, f, hf, href, huncut⟩, t, ht, hfields, hrefers⟩, u, hu, hown⟩ := hd
  obtain ⟨m, hm⟩ := isOk_iff.mp hok
  rw [← parse_eq_build hread] at hm
  refine ⟨d, m, hread, hm, o, tree, f, ho, htree, hf, href, huncut, ?_⟩
  obtain ⟨t', type, ht', htype, -, hiff⟩ :=
    ref_transparent_iff hread hm htree (.member .root hf) href huncut
  obtain rfl : t = t' := Option.some.inj (ht.symm.trans ht')
  refine ⟨t, type, ht, htype, fun hprunes => hown ?_⟩
  exact (hiff (by simp [hfields])).mp hprunes "b" hrefers u hu

end Concord
