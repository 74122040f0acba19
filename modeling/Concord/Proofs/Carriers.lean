import Mathlib.Data.List.Nodup
import Concord.Proofs.OmittedFields
import Concord.Proofs.VisitedObjects

/-! A field is carried by the member of its name, or else by a member that is spelt like it. As a
member has a name on the wire and may have another one in the source, it can be spelt like two
fields, and then it carries both, and neither is missing. -/
namespace Concord.Comparison

/-- A member is spelt like a field: its name on the wire or its name in the source is that of the field but
for case and separators. -/
def SpeltLike (f : FieldSchema) (c : Shape) : Prop :=
  Identifier.fold c.name = Identifier.fold f.name ∨
    ∃ d ∈ c.declaredName, Identifier.fold d = Identifier.fold f.name

/-- No member of a shape carries a field of an object: none has its name, and none that has the name of no
other field is spelt like it. -/
def Lacks (siblings : List FieldSchema) (f : FieldSchema) (s : Shape) : Prop :=
  ∀ c ∈ s.children, c.name ≠ f.name ∧ (c.name ∉ siblings.map (·.name) → ¬SpeltLike f c)

/-- A member stands in for a field of an object that no member has the name of: it is the first of those that
are spelt like it and have the name of no field. -/
structure StandsIn (siblings : List FieldSchema) (s : Shape) (f : FieldSchema) (c : Shape) : Prop where
  absent : f.name ∉ s.names
  undeclared : c.name ∉ siblings.map (·.name)
  spelt : SpeltLike f c
  first : ∃ before after, s.children = before ++ c :: after ∧
    ∀ b ∈ before, b.name ∉ siblings.map (·.name) → ¬SpeltLike f b

/-- A member has the name of one field on the wire and that of another in the source, but for case and
separators. -/
def Crosses (f g : FieldSchema) (c : Shape) : Prop :=
  Identifier.fold c.name = Identifier.fold f.name ∧
    ∃ d ∈ c.declaredName, Identifier.fold d = Identifier.fold g.name

section Members

variable {siblings : List FieldSchema} {f g : FieldSchema} {s c : Shape}

theorem isRenamed_iff : isRenamed (siblings.map (·.name)) f c = true ↔
    c.name ∉ siblings.map (·.name) ∧ SpeltLike f c := by
  simp [isRenamed, SpeltLike, Option.any_eq_true]

theorem carrier?_eq_some_iff : carrier? (siblings.map (·.name)) f s = some c ↔
    s.child? f.name = some c ∨ StandsIn siblings s f c := by
  have hfirst : s.children.find? (isRenamed (siblings.map (·.name)) f) = some c ↔
      (c.name ∉ siblings.map (·.name) ∧ SpeltLike f c) ∧ ∃ before after,
        s.children = before ++ c :: after ∧
          ∀ b ∈ before, b.name ∉ siblings.map (·.name) → ¬SpeltLike f b := by
    simp only [List.find?_eq_some_iff_append, isRenamed_iff, Bool.not_eq_true', ← Bool.not_eq_true,
      not_and]
  rw [carrier?, Option.or_eq_some_iff, Shape.child?_eq_none_iff, hfirst]
  apply or_congr_right
  constructor
  · rintro ⟨habsent, ⟨hundeclared, hspelt⟩, hfirst⟩
    exact ⟨habsent, hundeclared, hspelt, hfirst⟩
  · intro h
    exact ⟨h.absent, ⟨h.undeclared, h.spelt⟩, h.first⟩

theorem carrier?_eq_none_iff :
    carrier? (siblings.map (·.name)) f s = none ↔ Lacks siblings f s := by
  simp only [carrier?, Option.or_eq_none_iff, Shape.child?, List.find?_eq_none, isRenamed_iff, Lacks,
    beq_iff_eq, not_and, ← forall_and]

theorem name_of_child? {name : String} (h : s.child? name = some c) : c.name = name := by
  simpa using List.find?_some h

/-- A member that carries two fields stands in for both. -/
theorem standsIn_of_shared (hf : f ∈ siblings) (hg : g ∈ siblings) (hne : f.name ≠ g.name)
    (hcf : carrier? (siblings.map (·.name)) f s = some c)
    (hcg : carrier? (siblings.map (·.name)) g s = some c) :
    StandsIn siblings s f c ∧ StandsIn siblings s g c := by
  rcases carrier?_eq_some_iff.mp hcf with hnamed | hf'
  · rcases carrier?_eq_some_iff.mp hcg with hnamed' | hg'
    · exact absurd ((name_of_child? hnamed).symm.trans (name_of_child? hnamed')) hne
    · exact absurd (name_of_child? hnamed ▸ List.mem_map_of_mem hf) hg'.undeclared
  · rcases carrier?_eq_some_iff.mp hcg with hnamed' | hg'
    · exact absurd (name_of_child? hnamed' ▸ List.mem_map_of_mem hg) hf'.undeclared
    · exact ⟨hf', hg'⟩

theorem crosses_of_speltLike (hne : Identifier.fold f.name ≠ Identifier.fold g.name)
    (hf : SpeltLike f c) (hg : SpeltLike g c) : Crosses f g c ∨ Crosses g f c := by
  rcases hf with hf | ⟨d, hd, hf⟩
  · rcases hg with hg | hg
    · exact absurd (hf.symm.trans hg) hne
    · exact .inl ⟨hf, hg⟩
  · rcases hg with hg | ⟨d', hd', hg⟩
    · exact .inr ⟨hg, d, hd, hf⟩
    · obtain rfl : d = d' := Option.mem_unique hd hd'
      exact absurd (hf.symm.trans hg) hne

end Members

section Presence

variable {x : Exchange} {siblings : List FieldSchema} {f : FieldSchema} {path : String}
  {p : Participant}

def omits (declared : List String) (f : FieldSchema) (p : Participant) : Bool :=
  p.supplier && f.required && p.shape.confidence = .declared &&
    (carrier? declared f p.shape).isNone

theorem omits_iff : omits (siblings.map (·.name)) f p = true ↔ p.supplier = true ∧
    f.required = true ∧ p.shape.confidence = .declared ∧ Lacks siblings f p.shape := by
  simp [omits, carrier?_eq_none_iff, and_assoc]

theorem ofKind_presence {declared : List String} :
    ofKind .missing (presence x declared f path p) =
      if omits declared f p then [.plain (omission x path p)] else [] := by
  unfold presence omits carrier?
  cases p.shape.child? f.name with
  | some c => simp
  | none =>
    cases p.shape.children.find? (isRenamed declared f) with
    | some c => simp [ofKind, Finding.plain, Exchange.error]
    | none =>
      by_cases h : (p.supplier && f.required && decide (p.shape.confidence = .declared)) = true
      · simp [h, ofKind, Finding.plain, Exchange.error, omission]
      · simp [h]

end Presence

section Fields

variable {fields : List FieldSchema} {f g : FieldSchema} {s c : Shape}

theorem fold_ne_of_ne (hfields : (fields.map fun f => Identifier.fold f.name).Nodup) (hf : f ∈ fields)
    (hg : g ∈ fields) (hne : f ≠ g) : Identifier.fold f.name ≠ Identifier.fold g.name := by
  intro heq
  exact hne (List.inj_on_of_nodup_map hfields hf hg heq)

theorem shared_iff (hfields : (fields.map fun f => Identifier.fold f.name).Nodup) (hf : f ∈ fields)
    (hg : g ∈ fields) (hne : f ≠ g) :
    (carrier? (fields.map (·.name)) f s = some c ∧ carrier? (fields.map (·.name)) g s = some c) ↔
      StandsIn fields s f c ∧ StandsIn fields s g c ∧ (Crosses f g c ∨ Crosses g f c) := by
  have hfold := fold_ne_of_ne hfields hf hg hne
  have hname : f.name ≠ g.name := fun heq => hfold (heq ▸ rfl)
  constructor
  · rintro ⟨hcf, hcg⟩
    obtain ⟨hf', hg'⟩ := standsIn_of_shared hf hg hname hcf hcg
    exact ⟨hf', hg', crosses_of_speltLike hfold hf'.spelt hg'.spelt⟩
  · rintro ⟨hf', hg', -⟩
    exact ⟨carrier?_eq_some_iff.mpr (.inr hf'), carrier?_eq_some_iff.mpr (.inr hg')⟩

/-- Where no member has the names of two fields, at most as many fields have a member as there are
members. -/
theorem length_le_of_uncrossed (hfields : (fields.map fun f => Identifier.fold f.name).Nodup)
    (h : ∀ f ∈ fields, ∀ g ∈ fields, f ≠ g → ∀ c ∈ s.children, ¬Crosses f g c) :
    fields.length ≤ s.children.length +
      fields.countP fun f => (carrier? (fields.map (·.name)) f s).isNone := by
  let carried := fields.filterMap fun f => carrier? (fields.map (·.name)) f s
  have hapart : carried.Nodup := by
    apply List.pairwise_filterMap.mpr
    apply hfields.of_map.pairwise_of_forall_ne
    rintro f hf g hg hne c hcf _ hcg rfl
    have hc : c ∈ s.children := mem_children_of_carrier? hcf
    obtain ⟨-, -, hcross | hcross⟩ := (shared_iff hfields hf hg hne).mp ⟨hcf, hcg⟩
    · exact h f hf g hg hne c hc hcross
    · exact h g hg f hf hne.symm c hc hcross
  have hmembers : carried ⊆ s.children := by
    intro c hc
    obtain ⟨f, -, hcf⟩ := List.mem_filterMap.mp hc
    exact mem_children_of_carrier? hcf
  have hcarried : carried.length ≤ s.children.length := hapart.length_le_of_subset hmembers
  have hnone : (fun f => decide ¬(carrier? (fields.map (·.name)) f s).isSome = true) =
      fun f => (carrier? (fields.map (·.name)) f s).isNone := by
    funext f
    cases carrier? (fields.map (·.name)) f s <;> rfl
  have hcount : fields.length = carried.length +
      fields.countP fun f => (carrier? (fields.map (·.name)) f s).isNone := by
    rw [List.length_filterMap_eq_countP, ← hnone]
    exact List.length_eq_countP_add_countP _
  omega

/-- What is said to be missing are the required fields without a member. -/
theorem length_missing {x : Exchange} {path : String} {p : Participant} (declared : List String)
    (hsupplier : p.supplier = true) (hdeclared : p.shape.confidence = .declared)
    (hrequired : ∀ f ∈ fields, f.required = true) :
    (ofKind .missing (fields.flatMap fun f =>
        presence x declared f (FieldPath.join path f.name) p)).length =
      fields.countP fun f => (carrier? declared f p.shape).isNone := by
  induction fields with
  | nil => rfl
  | cons f fields ih =>
    obtain ⟨hf, hfields⟩ := List.forall_mem_cons.mp hrequired
    have homits : omits declared f p = (carrier? declared f p.shape).isNone := by
      simp [omits, hsupplier, hf, hdeclared]
    rw [List.flatMap_cons, ofKind_append, List.length_append, ih hfields, ofKind_presence, homits,
      List.countP_cons]
    cases (carrier? declared f p.shape).isNone <;> simp [Nat.add_comm]

end Fields

/-- Of fields that differ by more than case and separators, two share a member exactly if it stands in for
both, having the name of the one on the wire and that of the other in the source. Where no member has the
names of two fields, a supplier whose members are all known is told of at least as many missing fields as it
has too few members. -/
theorem shared_carrier_iff (fields : List FieldSchema) (s : Shape)
    (hfields : (fields.map fun f => Identifier.fold f.name).Nodup) :
    (∀ f ∈ fields, ∀ g ∈ fields, f ≠ g → ∀ c,
      (carrier? (fields.map (·.name)) f s = some c ∧ carrier? (fields.map (·.name)) g s = some c) ↔
        StandsIn fields s f c ∧ StandsIn fields s g c ∧ (Crosses f g c ∨ Crosses g f c)) ∧
    ((∀ f ∈ fields, ∀ g ∈ fields, f ≠ g → ∀ c ∈ s.children, ¬Crosses f g c) →
      (∀ f ∈ fields, f.required = true) → s.confidence = .declared →
      ∀ x path p, p.supplier = true → p.shape = s → fields.length ≤ s.children.length +
        (ofKind .missing (fields.flatMap fun f =>
          presence x (fields.map (·.name)) f (FieldPath.join path f.name) p)).length) := by
  constructor
  · intro f hf g hg hne c
    exact shared_iff hfields hf hg hne
  · rintro huncrossed hrequired hdeclared x path p hsupplier rfl
    rw [length_missing _ hsupplier hdeclared hrequired]
    exact length_le_of_uncrossed hfields huncrossed

def accountField (name : String) : FieldSchema :=
  ⟨name, .string, none, none, none, [], true, [], none, none, false⟩

def accountFields : List FieldSchema := [accountField "user_id", accountField "user_name"]

def mislabelled : Shape :=
  { Shape.plain "userId" .string default with declaredName := some "UserName" }

def account : Shape := { Shape.plain "" .object default with children := [mislabelled] }

/-- The one member of an account carries both of its fields, and none of them is said to be missing. -/
theorem account_member_shared :
    (accountFields.map fun f => Identifier.fold f.name).Nodup ∧ account.names.Nodup ∧
      (carrier? (accountFields.map (·.name)) (accountField "user_id") account = some mislabelled ∧
        carrier? (accountFields.map (·.name)) (accountField "user_name") account = some mislabelled) ∧
      ∀ x path b, ofKind .missing (accountFields.flatMap fun f =>
        presence x (accountFields.map (·.name)) f (FieldPath.join path f.name) ⟨b, true, account⟩) =
          [] := by
  have hfields : (accountFields.map fun f => Identifier.fold f.name).Nodup := by decide +kernel
  have hne : accountField "user_id" ≠ accountField "user_name" := by
    intro heq
    exact absurd (congrArg FieldSchema.name heq) (by decide)
  have hid : StandsIn accountFields account (accountField "user_id") mislabelled :=
    ⟨by decide, by decide, .inl (by decide +kernel), [], [], rfl, by simp⟩
  have hname : StandsIn accountFields account (accountField "user_name") mislabelled :=
    ⟨by decide, by decide, .inr ⟨"UserName", rfl, by decide +kernel⟩, [], [], rfl, by simp⟩
  have hshared := ((shared_carrier_iff accountFields account hfields).1 _ List.mem_cons_self _
    (List.mem_cons_of_mem _ List.mem_cons_self) hne mislabelled).mpr
    ⟨hid, hname, .inl ⟨by decide +kernel, "UserName", rfl, by decide +kernel⟩⟩
  refine ⟨hfields, by decide, hshared, ?_⟩
  intro x path b
  apply List.length_eq_zero_iff.mp
  rw [length_missing _ rfl rfl (by decide), List.countP_eq_zero]
  intro f hf
  rcases List.mem_pair.mp hf with rfl | rfl
  · simp [hshared.1]
  · simp [hshared.2]

end Concord.Comparison
