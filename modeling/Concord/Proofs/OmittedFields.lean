import Concord.Proofs.Locality

/-! A supplier that omits a required field, and is faithful otherwise, is told of that field and of
nothing else, except that its type may drift from the type of a reader. -/
namespace Concord

namespace Shape

def drop (name : String) (s : Shape) : Shape :=
  { s with children := s.children.filter (·.name != name) }

theorem child?_drop_self (name : String) (s : Shape) : (s.drop name).child? name = none := by
  simp [drop, child?]

theorem child?_drop_of_ne {name other : String} (h : other ≠ name) (s : Shape) :
    (s.drop name).child? other = s.child? other := by
  simp only [drop, child?, List.find?_filter]
  congr 1
  funext c
  by_cases hc : c.name = other
  · simp [hc, h]
  · simp [hc]

theorem names_drop {name other : String} {s : Shape}
    (h : other ∈ (s.drop name).children.map (·.name)) : other ∈ s.children.map (·.name) := by
  obtain ⟨c, hc, rfl⟩ := List.mem_map.mp h
  exact List.mem_map_of_mem (List.mem_of_mem_filter hc)

end Shape

namespace Comparison

section Walk

variable {x : Exchange} {path : String} {f target : FieldSchema} {fields : List FieldSchema}
  {c : Focus} {p : Participant}

def omission (x : Exchange) (path : String) (p : Participant) : Mismatch :=
  x.error .missing x.rule path p.location "required"
    s!"{p.describe} omits it from the {x.payload.display}"

theorem find?_isRenamed {declared : List String} {s : Shape}
    (h : ∀ name ∈ s.children.map (·.name), name ∈ declared) :
    s.children.find? (isRenamed declared f) = none := by
  apply List.find?_eq_none.mpr
  intro c hc
  simp [isRenamed, h c.name (List.mem_map_of_mem hc)]

theorem presence_eq_omission {declared : List String} (hsupplier : p.supplier = true)
    (hrequired : f.required = true) (hdeclared : p.shape.confidence = .declared)
    (hnone : p.shape.child? f.name = none)
    (hnames : ∀ name ∈ p.shape.children.map (·.name), name ∈ declared) :
    presence x declared f path p = [.plain (omission x path p)] := by
  simp [presence, hnone, find?_isRenamed hnames, hsupplier, hrequired, hdeclared, omission]

/-- Where the supplier omits a member of an object, only that is said, apart from drifts. -/
theorem objectFindings_drop (hnames : (fields.map (·.name)).Nodup)
    (hsilent : ∀ f ∈ fields, SilentOn x f) (hc : ∀ p ∈ c.all, FaithfulAll x fields p) (hf : f ∈ fields)
    (hsupplier : c.one.supplier = true) (hrequired : f.required = true)
    (hdeclared : c.one.shape.confidence = .declared) :
    objectFindings x fields path (c.altered (Shape.drop f.name))
        (memberFindings x (fields.map (·.name)) path (c.altered (Shape.drop f.name)) fields) =
      drifts x path (c.altered (Shape.drop f.name)) ++
        [.plain (omission x (FieldPath.join path f.name) c.one)] := by
  have hone : FaithfulAll x fields c.one := hc _ c.one_mem_all
  have hothers : ∀ p ∈ c.others, FaithfulAll x fields p :=
    fun p hp => hc p (Focus.mem_all_of_others hp)
  have hkept : ∀ name ∈ (c.one.shape.drop f.name).children.map (·.name),
      name ∈ fields.map (·.name) := fun name h => hone.names ▸ Shape.names_drop h
  have hpresence : ∀ p ∈ c.others,
      presence x (fields.map (·.name)) f (FieldPath.join path f.name) p = [] := by
    intro p hp
    apply presence_eq_nil
    rw [(hothers p hp).names]
    exact List.mem_map_of_mem hf
  have hbefore : c.before.flatMap
      (presence x (fields.map (·.name)) f (FieldPath.join path f.name)) = [] :=
    List.flatMap_eq_nil_iff.mpr fun p hp => hpresence p (List.mem_append_left _ hp)
  have hafter : c.after.flatMap
      (presence x (fields.map (·.name)) f (FieldPath.join path f.name)) = [] :=
    List.flatMap_eq_nil_iff.mpr fun p hp => hpresence p (List.mem_append_right _ hp)
  have hinside : fieldFindings x (FieldPath.join path f.name)
      ((c.altered (Shape.drop f.name)).filterMap fun p =>
        (carrier? (fields.map (·.name)) f p.shape).map p.inside) f = [] := by
    apply hsilent f hf
    intro q hq
    obtain ⟨p, hp, hcarrier⟩ := List.mem_filterMap.mp hq
    rcases Focus.mem_altered.mp hp with rfl | hp
    · simp [carrier?, Participant.inside, Shape.child?_drop_self, find?_isRenamed hkept] at hcarrier
    · obtain ⟨s, hs, hfaithful⟩ := (hothers p hp).exists_child hnames hf
      rw [carrier?_eq hs] at hcarrier
      exact Option.some.inj hcarrier ▸ hfaithful
  have homitted : presence x (fields.map (·.name)) f (FieldPath.join path f.name)
      (c.one.inside (c.one.shape.drop f.name)) =
        [.plain (omission x (FieldPath.join path f.name) c.one)] :=
    presence_eq_omission hsupplier hrequired hdeclared (Shape.child?_drop_self _ _) hkept
  have hchanges : ChangesOnly f.name (Shape.drop f.name) c.one.shape :=
    ⟨fun _ hne => Shape.child?_drop_of_ne hne _, fun _ h => Shape.names_drop h⟩
  rw [objectFindings_changed hnames hsilent hc hf hchanges, hinside, Focus.altered,
    List.flatMap_append, List.flatMap_cons, hbefore, hafter, homitted]
  rfl

theorem driftBetween?_of_types {q : Participant} (h : p.service = q.service ∨
    ∀ t, p.shape.typeName = some t → q.shape.typeName ≠ some t) : driftBetween? x path p q = none := by
  unfold driftBetween?
  split
  · rfl
  · next hservice =>
    split
    · next t u ht hu =>
      have hne : t ≠ u := by
        rintro rfl
        rcases h with h | h
        · simp [h] at hservice
        · exact h t ht hu
      simp [hne]
    · rfl

/-- One who has other members drifts from nobody who does not have the type. -/
theorem drifts_altered {g : Shape → Shape} {names : List String}
    (htype : (g c.one.shape).typeName = c.one.shape.typeName)
    (hothers : ∀ p ∈ c.others, p.shape.children.map (·.name) = names)
    (hone : ∀ p ∈ c.others, p.service = c.one.service ∨
      ∀ t, p.shape.typeName = some t → c.one.shape.typeName ≠ some t) :
    drifts x path (c.altered g) = [] := by
  apply drifts_eq_nil_iff.mpr
  apply List.pairwise_of_forall_mem_list
  intro p hp q hq
  rcases Focus.mem_altered.mp hp with rfl | hp <;> rcases Focus.mem_altered.mp hq with rfl | hq
  · exact driftBetween?_of_types (.inl rfl)
  · apply driftBetween?_of_types
    apply (hone q hq).imp Eq.symm
    intro h t hp hq
    exact h t hq (htype ▸ hp)
  · apply driftBetween?_of_types
    apply (hone p hp).imp id
    intro h t hp hq
    exact h t hp (htype ▸ hq)
  · exact driftBetween?_eq_none ((hothers p hp).trans (hothers q hq).symm)

theorem fieldFindings_drop (hx : ∀ cls, x.conventions.forClass? cls = none) {name : String}
    (hstep : target.step? (.member name) = some f)
    (htarget : target.every FieldSchema.distinctMembers = true)
    (hc : ∀ p ∈ c.all, Faithful x target p) (hsupplier : c.one.supplier = true)
    (hrequired : f.required = true) :
    fieldFindings x path (c.altered (Shape.drop name)) target =
      [.plain (omission x (FieldPath.join path name) c.one)] := by
  obtain ⟨⟨htype, htruncated⟩, hfind⟩ := Option.ite_none_right_eq_some.mp hstep
  obtain ⟨hmem, rfl⟩ := mem_of_find?_name hfind
  obtain ⟨hdistinct, -⟩ := FieldSchema.every_distinctMembers_iff.mp htarget
  have hmembers : ∀ p ∈ c.all, FaithfulAll x target.children p :=
    fun p hp => (hc p hp).members htruncated
  have haccords : ∀ p ∈ c.altered (Shape.drop f.name), Accords x target p := by
    apply Focus.forall_altered
    · exact fun p hp => (hc p hp).accords
    · exact fun h => ⟨h.quiet, h.casing, h.agrees.inside _ _⟩
  have hone : Agrees target c.one.shape := (hc _ c.one_mem_all).agrees
  have hdrifts : drifts x path (c.altered (Shape.drop f.name)) = [] := by
    apply drifts_altered rfl (fun p hp => (hmembers p (Focus.mem_all_of_others hp)).names)
    intro p _
    simp [hone.anonymous]
  rw [fieldFindings_object htruncated htype, fieldMismatches_eq_nil hx haccords,
    filter_objects htype fun p hp => (haccords p hp).agrees,
    objectFindings_drop hdistinct.names (silentOn_members hx hdistinct) hmembers hmem hsupplier
      hrequired hone.declared, hdrifts]
  rfl

/-- The supplier omits a required field at the end of some steps. Drifts are possible only if it is
a field of the whole payload. -/
theorem payloadFindings_drop (hx : ∀ cls, x.conventions.forClass? cls = none)
    (hfields : DistinctNames fields) (hc : ∀ p ∈ c.all, FaithfulAll x fields p) {steps : List Step}
    {name : String} (hat : fieldAt? fields (steps ++ [.member name]) = some f)
    (hsupplier : c.one.supplier = true) (hrequired : f.required = true)
    (hdeclared : c.one.shape.confidence = .declared) :
    ∃ p, payloadFindings x fields (c.altered (Shape.update (Shape.drop name) steps)) =
      (if steps = [] then drifts x "" (c.altered (Shape.drop name)) else []) ++
        [.plain (omission x (pathAlong "" (steps ++ [.member name])) p)] := by
  have hpath : pathAlong "" (steps ++ [.member name]) =
      FieldPath.join (pathAlong "" steps) name := by
    simp [pathAlong, Step.name]
  cases steps with
  | nil =>
    obtain ⟨f', hfind, hf'⟩ := Option.bind_eq_some_iff.mp hat
    obtain rfl : f' = f := Option.some.inj hf'
    obtain ⟨hmem, rfl⟩ := mem_of_find?_name hfind
    refine ⟨c.one, ?_⟩
    rw [hpath, payloadFindings_eq]
    exact objectFindings_drop hfields.names (silentOn_members hx hfields) hc hmem hsupplier hrequired
      hdeclared
  | cons step rest =>
    -- the object that lacks the member is a field itself, to which the walk goes first
    have hsplit : ∃ target, fieldAt? fields (step :: rest) = some target ∧
        target.step? (.member name) = some f := by
      cases step with
      | item => cases hat
      | member first =>
        obtain ⟨f', hfind, hrest⟩ := Option.bind_eq_some_iff.mp hat
        change f'.at? (rest ++ [.member name]) = some f at hrest
        rw [FieldSchema.at?_append] at hrest
        obtain ⟨target, htarget, hlast⟩ := Option.bind_eq_some_iff.mp hrest
        refine ⟨target, Option.bind_eq_some_iff.mpr ⟨f', hfind, htarget⟩, ?_⟩
        simpa [FieldSchema.at?] using hlast
    obtain ⟨target, htarget, hlast⟩ := hsplit
    obtain ⟨hdistinct, d, hsame, hd, hfindings⟩ := exists_fieldAt hx htarget hfields hc
    have hsupplier' : d.one.supplier = true := (congrArg Prod.snd hsame.one).trans hsupplier
    refine ⟨d.one, ?_⟩
    rw [hpath, hfindings (Shape.drop name) fun _ => rfl,
      fieldFindings_drop hx hlast hdistinct hd hsupplier' hrequired]
    rfl

end Walk

end Comparison

end Concord
