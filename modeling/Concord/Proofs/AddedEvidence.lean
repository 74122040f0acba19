import Concord.Proofs.BindingOrder
import Concord.Proofs.FreeText

/-! Evidence of a scaling or of a change of case excuses what would be a mismatch otherwise. More of
it takes findings away, or lets a later check of the same participant find something. -/
namespace Concord

variable {α β γ : Type} {v : Evidence} {m : Mismatch}

/-- Another binding of the same code with more evidence, all of which satisfies `A`. -/
structure Binding.Gains (A : Evidence → Prop) (b b' : Binding) : Prop where
  evidence : ∃ added, Interleave added b.evidence b'.evidence ∧ ∀ v ∈ added, A v
  rest : b' = { b with evidence := b'.evidence }

namespace EvidenceKind

def IsScale (k : EvidenceKind) : Prop := ∃ c, k = .scale c

def IsCase (k : EvidenceKind) : Prop := ∃ t, k = .case t

def IsRender (k : EvidenceKind) : Prop := ∃ n, k = .render n

end EvidenceKind

namespace Comparison

/-- The same participant with more evidence. -/
structure Participant.Gains (A : Evidence → Prop) (p p' : Participant) : Prop where
  binding : p.binding.Gains A p'.binding
  supplier : p'.supplier = p.supplier
  shape : p'.shape = p.shape

section Gains

variable {A : Evidence → Prop} {p p' : Participant} {ps ps' : List Participant} {f : FieldSchema}
  {x : Exchange} {path : String} {R : α → β → Prop} {as : List α} {bs : List β}

theorem Participant.Gains.key (h : p.Gains A p') : p'.binding.key = p.binding.key := by
  rw [h.binding.rest]

theorem Participant.Gains.names (h : p.Gains A p') (f : FieldSchema) : p'.names f = p.names f := by
  rw [Participant.names, h.shape, Participant.names]

theorem Participant.Gains.describe (h : p.Gains A p') : p'.describe = p.describe := by
  rw [Participant.describe, Binding.describe, h.key, Participant.describe, Binding.describe]

theorem Participant.Gains.verb (h : p.Gains A p') : p'.verb = p.verb := by
  rw [Participant.verb, h.supplier, Participant.verb]

theorem Participant.Gains.service (h : p.Gains A p') : p'.service = p.service := by
  rw [Participant.service, h.key, Participant.service]

theorem Participant.Gains.location (h : p.Gains A p') : p'.location = p.location := by
  rw [Participant.location, h.shape, Participant.location]

theorem Participant.Gains.inside (h : p.Gains A p') (s : Shape) : (p.inside s).Gains A (p'.inside s) :=
  ⟨h.binding, h.supplier, rfl⟩

theorem forall₂_inside (part : Shape → Option Shape)
    (h : List.Forall₂ (Participant.Gains A) ps ps') :
    List.Forall₂ (Participant.Gains A) (ps.filterMap fun p => (part p.shape).map p.inside)
      (ps'.filterMap fun p => (part p.shape).map p.inside) := by
  apply List.rel_filterMap (fun p p' hp => ?_) h
  rw [hp.shape]
  cases part p.shape with
  | none => exact .none
  | some s => exact .some (hp.inside s)

theorem forall₂_participants {bindings bindings' : List Binding} (payload : PayloadKind)
    (h : List.Forall₂ (Binding.Gains A) bindings bindings') :
    List.Forall₂ (Participant.Gains A) (participants payload bindings)
      (participants payload bindings') := by
  apply List.rel_filterMap (fun b b' hb => ?_) h
  have hshape : b'.shape? payload = b.shape? payload := by
    rw [hb.rest]
    cases payload <;> rfl
  have hsupplies : b'.supplies payload = b.supplies payload := by
    rw [hb.rest]
    rfl
  rw [hshape, hsupplies]
  cases b.shape? payload with
  | none => exact .none
  | some s => exact .some ⟨hb, rfl, rfl⟩

theorem Participant.Gains.kindMismatch? (h : p.Gains A p') :
    kindMismatch? x f p' path = kindMismatch? x f p path := by
  simp only [Comparison.kindMismatch?, h.shape, h.location, h.describe, h.verb]

theorem Participant.Gains.strictnessMismatch? (h : p.Gains A p') :
    strictnessMismatch? x f p' path = strictnessMismatch? x f p path := by
  simp only [Comparison.strictnessMismatch?, looser?, stricter?, h.supplier, h.shape, h.key, h.describe,
    h.location]

theorem Participant.Gains.presence (h : p.Gains A p') (declared : List String) :
    presence x declared f path p' = presence x declared f path p := by
  simp only [Comparison.presence, h.supplier, h.shape, h.describe, h.verb, h.location]

theorem Participant.Gains.extras (h : p.Gains A p') (fields : List FieldSchema) :
    extras x fields path p' = extras x fields path p := by
  have hextra : extra x path p' = extra x path p := by
    funext c
    simp only [extra, h.supplier, h.describe]
  simp only [Comparison.extras, h.shape, hextra]

theorem Participant.Gains.driftBetween? {q q' : Participant} (h : p.Gains A p') (hq : q.Gains A q') :
    driftBetween? x path p' q' = driftBetween? x path p q := by
  simp only [Comparison.driftBetween?, onlyClause, h.service, h.shape, hq.service, hq.shape,
    hq.location]

theorem exists_of_mem_right {b : β} (h : List.Forall₂ R as bs) (hb : b ∈ bs) : ∃ a ∈ as, R a b := by
  induction h with
  | nil => cases hb
  | @cons a b' as bs hab _ ih =>
    rcases List.mem_cons.mp hb with rfl | hb
    · exact ⟨a, List.mem_cons_self, hab⟩
    · obtain ⟨a', ha', hR⟩ := ih hb
      exact ⟨a', List.mem_cons_of_mem a ha', hR⟩

theorem filterMap_eq_of_forall₂ {g : α → Option γ} {g' : β → Option γ} (h : List.Forall₂ R as bs)
    (hg : ∀ a b, R a b → g' b = g a) : bs.filterMap g' = as.filterMap g := by
  induction h with
  | nil => rfl
  | cons hab _ ih => simp only [List.filterMap_cons, hg _ _ hab, ih]

theorem flatMap_eq_of_forall₂ {g : α → List γ} {g' : β → List γ} (h : List.Forall₂ R as bs)
    (hg : ∀ a b, R a b → g' b = g a) : bs.flatMap g' = as.flatMap g := by
  induction h with
  | nil => rfl
  | cons hab _ ih => simp only [List.flatMap_cons, hg _ _ hab, ih]

theorem find?_rel {q : α → Bool} {q' : β → Bool} (h : List.Forall₂ R as bs)
    (hq : ∀ a b, R a b → q' b = q a) : Option.Rel R (as.find? q) (bs.find? q') := by
  induction h with
  | nil => exact .none
  | @cons a b as bs hab _ ih =>
    simp only [List.find?_cons, hq a b hab]
    cases q a with
    | true => exact .some hab
    | false => exact ih

theorem map_eq_of_rel {g : α → γ} {g' : β → γ} {a? : Option α} {b? : Option β}
    (h : Option.Rel R a? b?) (hg : ∀ a b, R a b → g' b = g a) : b?.map g' = a?.map g := by
  cases h with
  | none => rfl
  | some hab => rw [Option.map_some, Option.map_some, hg _ _ hab]

theorem drifts_gains (h : List.Forall₂ (Participant.Gains A) ps ps') :
    drifts x path ps' = drifts x path ps := by
  induction h with
  | nil => rfl
  | @cons p p' ps ps' hp hps ih =>
    rw [drifts, drifts, ih, filterMap_eq_of_forall₂ hps fun q q' hq => hp.driftBetween? hq]

theorem forall₂_suppliers (h : List.Forall₂ (Participant.Gains A) ps ps') :
    List.Forall₂ (Participant.Gains A) (ps.filter (·.supplier)) (ps'.filter (·.supplier)) :=
  List.rel_filter (fun p p' hp => by simp [hp.supplier]) h

theorem findSome?_eq_of_forall₂ {g : α → Option γ} {g' : β → Option γ} (h : List.Forall₂ R as bs)
    (hg : ∀ a b, R a b → g' b = g a) : bs.findSome? g' = as.findSome? g := by
  induction h with
  | nil => rfl
  | cons hab _ ih => simp only [List.findSome?_cons, hg _ _ hab, ih]

theorem formatMismatch?_gains (hp : p.Gains A p') (h : List.Forall₂ (Participant.Gains A) ps ps') :
    formatMismatch? x f p' ps' path = formatMismatch? x f p ps path := by
  have hproper {q q' : Participant} (hq : q.Gains A q') : properFormat? q' = properFormat? q := by
    rw [properFormat?, hq.shape, properFormat?]
  unfold formatMismatch?
  simp only [hproper hp, hp.supplier, hp.location, hp.describe, hp.verb, List.map_findSome?]
  congr 1
  funext mine
  cases f.format with
  | some declared => rfl
  | none =>
    dsimp only
    congr 1
    apply findSome?_eq_of_forall₂ (forall₂_suppliers h)
    intro q q' hq
    simp only [Function.comp_def, hproper hq, Option.map_map, hq.describe]

theorem Participant.Gains.evidenceOn (h : p.Gains A p') (names : List String) :
    ∃ added, Interleave added (p.evidenceOn names) (p'.evidenceOn names) ∧ ∀ v ∈ added, A v := by
  obtain ⟨added, hadded, hall⟩ := h.binding.evidence
  exact ⟨_, hadded.filter _, fun v hv => hall v (List.mem_of_mem_filter hv)⟩

theorem Participant.Gains.evidenceOn_subset (h : p.Gains A p') (names : List String) :
    p.evidenceOn names ⊆ p'.evidenceOn names := by
  obtain ⟨added, hadded, -⟩ := h.evidenceOn names
  exact hadded.sublist.subset

theorem Participant.Gains.evidenceOn_eq (h : p.Gains A p') (hA : ∀ v, A v → v.scope = .file)
    (names : List String) : p'.evidenceOn names = p.evidenceOn names := by
  obtain ⟨added, hadded, hall⟩ := h.binding.evidence
  unfold Participant.evidenceOn
  rw [← List.filterMap_eq_filter]
  apply hadded.filterMap_eq
  intro v hv
  simp [Option.guard, Evidence.atBoundary, hA v (hall v hv)]

theorem Participant.Gains.comparedValues (h : p.Gains A p')
    (hA : ∀ v, A v → ∀ t, v.kind ≠ .enumLiteral t) (names : List String) :
    comparedValues p' names = comparedValues p names := by
  obtain ⟨added, hadded, hall⟩ := h.binding.evidence
  unfold Comparison.comparedValues
  rw [h.supplier]
  congr 2
  apply hadded.filterMap_eq
  intro v hv
  have hkind := hA v (hall v hv)
  cases hk : v.kind with
  | enumLiteral t => exact absurd hk (hkind t)
  | _ => rfl

theorem Participant.Gains.caseTransforms_subset (h : p.Gains A p') (names : List String) :
    caseTransforms p names ⊆ caseTransforms p' names := by
  intro t ht
  obtain ⟨v, hv, hkind⟩ := List.mem_filterMap.mp ht
  exact List.mem_filterMap.mpr ⟨v, h.evidenceOn_subset names hv, hkind⟩

theorem Participant.Gains.caseTransforms_eq (h : p.Gains A p') (hA : ∀ v, A v → ¬v.kind.IsCase)
    (names : List String) : caseTransforms p' names = caseTransforms p names := by
  obtain ⟨added, hadded, hall⟩ := h.evidenceOn names
  apply hadded.filterMap_eq
  intro v hv
  have hkind := hA v (hall v hv)
  cases hk : v.kind with
  | case t => exact absurd ⟨t, hk⟩ hkind
  | _ => rfl

theorem forms_subset {ts ts' : List CaseTransform} (h : ts ⊆ ts') (value : String) :
    forms ts value ⊆ forms ts' value :=
  List.cons_subset_cons value (List.map_subset _ h)

theorem isSome_enumMismatch?_of_gains (h : p.Gains A p')
    (hA : ∀ v, A v → ∀ t, v.kind ≠ .enumLiteral t)
    (hsome : (enumMismatch? x f p' path).isSome) : (enumMismatch? x f p path).isSome := by
  have hforms (v : String) : forms (caseTransforms p (p.names f)) v ⊆
      forms (caseTransforms p' (p.names f)) v :=
    forms_subset (h.caseTransforms_subset _) v
  rw [enumMismatch?_isSome_iff] at hsome ⊢
  simp only [Unlisted, AgainstCasing, h.names, h.supplier, h.shape, h.service,
    h.comparedValues hA] at hsome ⊢
  rcases hsome with ⟨hvalues, v, hunlisted, hv⟩ | ⟨v, ⟨casing, hcasing, hagainst⟩, hv⟩
  · exact .inl ⟨hvalues, v, fun w hw => hunlisted w (hforms v hw), hv⟩
  · exact .inr ⟨v, ⟨casing, hcasing, fun w hw => hagainst w (hforms v hw)⟩, hv⟩

theorem enumMismatch?_gains (h : p.Gains A p') (hA : ∀ v, A v → ∀ t, v.kind ≠ .enumLiteral t)
    (hcase : caseTransforms p' (p.names f) = caseTransforms p (p.names f)) :
    enumMismatch? x f p' path = enumMismatch? x f p path := by
  simp only [enumMismatch?, unlisted, h.names, h.supplier, h.shape, h.service, h.describe, h.verb,
    h.location, h.comparedValues hA, hcase]

theorem scalesBy_of_subset {tolerance : Binary64} {needed : Conversion} {vs vs' : List Evidence}
    (h : vs ⊆ vs') (hscales : scalesBy tolerance needed vs = true) :
    scalesBy tolerance needed vs' = true := by
  obtain ⟨v, hv, hscale⟩ := List.any_eq_true.mp hscales
  exact List.any_eq_true.mpr ⟨v, h hv, hscale⟩

theorem isSome_bareCents?_of_gains (h : p.Gains A p') (hA : ∀ v, A v → ¬v.kind.IsRender)
    {names : List String} (hsome : (bareCents? p' names).isSome) : (bareCents? p names).isSome := by
  unfold bareCents? at hsome ⊢
  dsimp only at hsome ⊢
  split at hsome
  · cases hsome
  · next hscales =>
    rw [if_neg fun hbefore => hscales (scalesBy_of_subset (h.evidenceOn_subset names) hbefore)]
    obtain ⟨v, hv, hrender⟩ := List.find?_isSome.mp hsome
    obtain ⟨added, hadded, hall⟩ := h.evidenceOn names
    rcases hadded.mem_or_mem hv with hnew | hold
    · cases hk : v.kind with
      | render n => exact absurd ⟨n, hk⟩ (hA v (hall v hnew))
      | _ => simp [hk] at hrender
    · exact List.find?_isSome.mpr ⟨v, hold, hrender⟩

/-- The same unit that arrives from the same supplier, which may have more evidence. -/
structure Arrival.Gains (A : Evidence → Prop) (a a' : Arrival) : Prop where
  unit : a'.unit = a.unit
  supplier : Option.Rel (Participant.Gains A) a.supplier a'.supplier

theorem arrival_promised {promised : Option String} {a : Arrival}
    (h : a ∈ promised.toList.map (⟨·, none⟩)) : a.Gains A a := by
  obtain ⟨unit, -, rfl⟩ := List.mem_map.mp h
  exact ⟨rfl, .none⟩

theorem forall₂_arrivals (h : List.Forall₂ (Participant.Gains A) ps ps') (unit : String) :
    List.Forall₂ (Arrival.Gains A) (arrivals x f unit ps) (arrivals x f unit ps') := by
  have hsuppliers := forall₂_suppliers h
  unfold arrivals
  dsimp only
  generalize ps.filter (·.supplier) = ss at hsuppliers ⊢
  generalize ps'.filter (·.supplier) = ss' at hsuppliers ⊢
  cases hsuppliers with
  | nil => exact List.forall₂_same.mpr fun a ha => arrival_promised ha
  | cons hs hss =>
    apply List.rel_filterMap (fun t t' ht => ?_) (List.Forall₂.cons hs hss)
    rw [ht.shape]
    cases t.shape.unit.or _ with
    | none => exact .none
    | some u => exact .some ⟨rfl, .some ht⟩

theorem Arrival.Gains.evidence {a a' : Arrival} (h : a.Gains A a') (names : List String) :
    (a.supplier.map (·.evidenceOn names)).getD [] ⊆ (a'.supplier.map (·.evidenceOn names)).getD [] := by
  obtain ⟨unit, supplier⟩ := a
  obtain ⟨unit', supplier'⟩ := a'
  cases h.supplier with
  | none => exact List.Subset.refl _
  | some hs => exact hs.evidenceOn_subset names

theorem arrivesAs_of_gains {a a' : Arrival} (hp : p.Gains A p') (ha : a.Gains A a')
    {names : List String} {unit : String} (h : arrivesAs p names unit a = true) :
    arrivesAs p' names unit a' = true := by
  unfold arrivesAs at h ⊢
  rw [ha.unit]
  rcases Bool.or_eq_true_iff.mp h with hsame | hconverted
  · exact Bool.or_eq_true_iff.mpr (.inl hsame)
  · obtain ⟨needed, hneeded, hscales⟩ := (Option.any_eq_true _ _).mp hconverted
    refine Bool.or_eq_true_iff.mpr (.inr ((Option.any_eq_true _ _).mpr ⟨needed, hneeded, ?_⟩))
    refine scalesBy_of_subset ?_ hscales
    exact List.append_subset.mpr
      ⟨List.subset_append_of_subset_left _ (hp.evidenceOn_subset names),
        List.subset_append_of_subset_right _ (ha.evidence names)⟩

theorem unitMismatch?_isSome_iff : (unitMismatch? x f p ps path).isSome ↔
    ∃ unit, p.shape.unit.or f.unit = some unit ∧
      ((Quantity.isMinorCurrency unit = true ∧ (bareCents? p (p.names f)).isSome) ∨
        ∃ a ∈ arrivals x f unit ps, arrivesAs p (p.names f) unit a = false) := by
  unfold unitMismatch?
  cases p.shape.unit.or f.unit with
  | none => simp
  | some unit =>
    simp only [Option.bind_some, Option.some.injEq, exists_eq_left']
    cases hminor : Quantity.isMinorCurrency unit <;> cases hcents : bareCents? p (p.names f) <;> simp

theorem isSome_unitMismatch?_of_gains (hp : p.Gains A p')
    (hps : List.Forall₂ (Participant.Gains A) ps ps') (hA : ∀ v, A v → ¬v.kind.IsRender)
    (hsome : (unitMismatch? x f p' ps' path).isSome) : (unitMismatch? x f p ps path).isSome := by
  rw [unitMismatch?_isSome_iff] at hsome ⊢
  simp only [hp.shape, hp.names] at hsome
  obtain ⟨unit, hunit, ⟨hminor, hcents⟩ | ⟨a', ha', hother⟩⟩ := hsome
  · exact ⟨unit, hunit, .inl ⟨hminor, isSome_bareCents?_of_gains hp hA hcents⟩⟩
  · obtain ⟨a, ha, hgains⟩ := exists_of_mem_right (forall₂_arrivals hps unit) ha'
    refine ⟨unit, hunit, .inr ⟨a, ha, ?_⟩⟩
    by_contra hsame
    rw [Bool.not_eq_false] at hsame
    rw [arrivesAs_of_gains hp hgains hsame] at hother
    cases hother

theorem unitMismatch?_gains (hp : p.Gains A p') (hps : List.Forall₂ (Participant.Gains A) ps ps')
    (hA : ∀ v, A v → v.scope = .file) :
    unitMismatch? x f p' ps' path = unitMismatch? x f p ps path := by
  have hcents (names : List String) : bareCents? p' names = bareCents? p names := by
    rw [bareCents?, hp.evidenceOn_eq hA, bareCents?]
  have harrives (unit : String) : ∀ a a', a.Gains A a' → (!arrivesAs p' (p.names f) unit a') =
      !arrivesAs p (p.names f) unit a := by
    rintro ⟨u, s⟩ ⟨u', s'⟩ ⟨hunit, hsupplier⟩
    obtain rfl : u' = u := hunit
    cases hsupplier with
    | none => simp only [arrivesAs, hp.evidenceOn_eq hA, Option.map_none]
    | some hs => simp only [arrivesAs, hp.evidenceOn_eq hA, hs.evidenceOn_eq hA, Option.map_some]
  unfold unitMismatch?
  rw [hp.shape, hp.names, hp.location, hp.describe]
  cases p.shape.unit.or f.unit with
  | none => rw [Option.bind_none, Option.bind_none]
  | some unit =>
    simp only [Option.bind_some, hcents]
    split
    · rfl
    · apply map_eq_of_rel (find?_rel (forall₂_arrivals hps unit) (harrives unit))
      rintro ⟨u, s⟩ ⟨u', s'⟩ ⟨hunit, hsupplier⟩
      obtain rfl : u' = u := hunit
      cases hsupplier with
      | none => rfl
      | some hs => simp only [Option.map_some, Option.getD_some, hs.describe]

/-- Scalings and changes of case. -/
def IsConversion (v : Evidence) : Prop := v.kind.IsScale ∨ v.kind.IsCase

theorem IsConversion.not_render (h : IsConversion v) : ¬v.kind.IsRender := by
  rintro ⟨n, hn⟩
  rcases h with ⟨c, hc⟩ | ⟨t, ht⟩
  · simp [hn] at hc
  · simp [hn] at ht

theorem IsConversion.not_literal (h : IsConversion v) (t : String) : v.kind ≠ .enumLiteral t := by
  intro hkind
  rcases h with ⟨c, hc⟩ | ⟨t', ht⟩
  · simp [hkind] at hc
  · simp [hkind] at ht

theorem isSome_firstMismatch?_of_gains (hp : p.Gains IsConversion p')
    (hps : List.Forall₂ (Participant.Gains IsConversion) ps ps')
    (hsome : (firstMismatch? x f path ps' p').isSome) : (firstMismatch? x f path ps p).isSome := by
  rw [firstMismatch?_isSome_iff] at hsome ⊢
  rw [hp.shape, hp.supplier, formatMismatch?_gains hp hps, hp.strictnessMismatch?] at hsome
  rcases hsome with hkind | henum | ⟨hreader, hunit⟩ | hrest
  · exact .inl hkind
  · exact .inr (.inl (isSome_enumMismatch?_of_gains hp (fun _ => IsConversion.not_literal) henum))
  · exact .inr (.inr (.inl ⟨hreader,
      isSome_unitMismatch?_of_gains hp hps (fun _ => IsConversion.not_render) hunit⟩))
  · exact .inr (.inr (.inr hrest))

theorem kind_of_enumCheck (h : enumMismatch? x f p path = some m) :
    m.kind = .enum ∨ m.kind = .case := by
  obtain ⟨kind, _, _, _, _, hkind, rfl⟩ := exists_error_of_enumMismatch? h
  exact hkind

theorem kind_of_kindMismatch? (h : kindMismatch? x f p path = some m) : m.kind = .type := by
  obtain ⟨_, _, _, rfl⟩ := exists_error_of_kindMismatch? h
  rfl

/-- A finding on a unit is that of the check of units, after which nothing was found before. -/
theorem firstMismatch?_unit_iff : (∃ m, firstMismatch? x f path ps p = some m ∧ m.kind = .unit) ↔
    valueMismatch? x f path p = none ∧ p.supplier = false ∧ (unitMismatch? x f p ps path).isSome := by
  rw [firstMismatch?_eq]
  constructor
  · rintro ⟨m, hm, hkind⟩
    rcases Option.or_eq_some_iff.mp hm with hvalue | ⟨hvalue, hm⟩
    · rcases Option.or_eq_some_iff.mp hvalue with htype | ⟨-, henum⟩
      · simp [kind_of_kindMismatch? htype] at hkind
      · rcases kind_of_enumCheck henum with h | h <;> simp [h] at hkind
    · rcases Option.or_eq_some_iff.mp hm with hquantity | ⟨-, hstrictness⟩
      · unfold quantityMismatch? at hquantity
        split at hquantity
        · simp [kind_of_formatMismatch? hquantity] at hkind
        · next hreader =>
          rcases Option.or_eq_some_iff.mp hquantity with hunit | ⟨-, hformat⟩
          · exact ⟨hvalue, by simpa using hreader, by simp [hunit]⟩
          · simp [kind_of_formatMismatch? hformat] at hkind
      · simp [kind_of_strictnessMismatch? hstrictness] at hkind
  · rintro ⟨hvalue, hreader, hunit⟩
    obtain ⟨m, hm⟩ := Option.isSome_iff_exists.mp hunit
    exact ⟨m, by simp [hvalue, quantityMismatch?, hreader, hm], kind_of_unitMismatch? hm⟩

theorem firstMismatch?_enum_iff :
    (∃ m, firstMismatch? x f path ps p = some m ∧ (m.kind = .enum ∨ m.kind = .case)) ↔
      kindMismatch? x f p path = none ∧ (enumMismatch? x f p path).isSome := by
  rw [firstMismatch?_eq]
  constructor
  · rintro ⟨m, hm, hkind⟩
    rcases Option.or_eq_some_iff.mp hm with hvalue | ⟨-, hm⟩
    · rcases Option.or_eq_some_iff.mp hvalue with htype | ⟨htype, henum⟩
      · simp [kind_of_kindMismatch? htype] at hkind
      · exact ⟨htype, by simp [henum]⟩
    · rcases Option.or_eq_some_iff.mp hm with hquantity | ⟨-, hstrictness⟩
      · rcases kind_of_quantityMismatch? hquantity with h | h <;> simp [h] at hkind
      · simp [kind_of_strictnessMismatch? hstrictness] at hkind
  · rintro ⟨htype, henum⟩
    obtain ⟨m, hm⟩ := Option.isSome_iff_exists.mp henum
    exact ⟨m, by simp [valueMismatch?, htype, hm], kind_of_enumCheck hm⟩

theorem fieldMismatches_eq_nil_iff : fieldMismatches x f path ps = [] ↔
    ∀ p ∈ ps, (firstMismatch? x f path ps p).isSome = false := by
  rw [← List.perm_nil, (fieldMismatches_perm x f path ps).congr_left, List.perm_nil,
    List.filterMap_eq_nil_iff]
  simp

theorem relatesPieces_conversions (x : Exchange) :
    RelatesPieces x (List.Forall₂ (Participant.Gains IsConversion)) fun ys ys' => ys = [] → ys' = [] where
  nil := id
  append := by
    intro ys ys' zs zs' hys hzs h
    obtain ⟨hnil, hnil'⟩ := List.append_eq_nil_iff.mp h
    rw [hys hnil, hzs hnil', List.append_nil]
  inside := fun part _ _ h => forall₂_inside part h
  drift := by
    intro path ps ps' h hnil
    rw [drifts_gains h, hnil]
  presence := by
    intro declared f path ps ps' h hnil
    rw [flatMap_eq_of_forall₂ h fun p p' hp => hp.presence declared, hnil]
  own := by
    intro f path ps ps' h hnil
    rw [List.map_eq_nil_iff, fieldMismatches_eq_nil_iff] at hnil ⊢
    intro p' hp'
    obtain ⟨p, hp, hgains⟩ := exists_of_mem_right h hp'
    by_contra hsome
    rw [Bool.not_eq_false] at hsome
    have hbefore := isSome_firstMismatch?_of_gains hgains h hsome
    rw [hnil p hp] at hbefore
    cases hbefore
  extra := by
    intro fields path ps ps' h hnil
    rw [flatMap_eq_of_forall₂ h fun p p' hp => hp.extras fields, hnil]

/-- Scalings, changes of case and renderings far from the boundary. -/
def IsRemote (v : Evidence) : Prop :=
  v.scope = .file ∧ (v.kind.IsScale ∨ v.kind.IsCase ∨ v.kind.IsRender)

theorem IsRemote.not_literal (h : IsRemote v) (t : String) : v.kind ≠ .enumLiteral t := by
  intro hkind
  rcases h.2 with ⟨c, hc⟩ | ⟨t', ht⟩ | ⟨n, hn⟩
  · simp [hkind] at hc
  · simp [hkind] at ht
  · simp [hkind] at hn

theorem fieldMismatches_remote (h : List.Forall₂ (Participant.Gains IsRemote) ps ps') :
    fieldMismatches x f path ps' = fieldMismatches x f path ps := by
  have hvalue : ∀ p p', p.Gains IsRemote p' → valueMismatch? x f path p' = valueMismatch? x f path p := by
    intro p p' hp
    have hcase : caseTransforms p' (p.names f) = caseTransforms p (p.names f) := by
      rw [caseTransforms, hp.evidenceOn_eq fun _ hv => hv.1, caseTransforms]
    rw [valueMismatch?, hp.kindMismatch?, enumMismatch?_gains hp (fun _ => IsRemote.not_literal) hcase,
      valueMismatch?]
  have hquantity : ∀ p p', p.Gains IsRemote p' →
      quantityMismatch? x f path ps' p' = quantityMismatch? x f path ps p := by
    intro p p' hp
    rw [quantityMismatch?, hp.supplier, formatMismatch?_gains hp h,
      unitMismatch?_gains hp h fun _ hv => hv.1, quantityMismatch?]
  have hpassed := List.rel_filter (p := fun p => (valueMismatch? x f path p).isNone)
    (q := fun p => (valueMismatch? x f path p).isNone) (fun p p' hp => by simp [hvalue p p' hp]) h
  have hclean := List.rel_filter (p := fun p => (quantityMismatch? x f path ps p).isNone)
    (q := fun p => (quantityMismatch? x f path ps' p).isNone)
    (fun p p' hp => by simp [hquantity p p' hp]) hpassed
  unfold fieldMismatches
  dsimp only
  rw [filterMap_eq_of_forall₂ h hvalue, filterMap_eq_of_forall₂ hpassed hquantity,
    filterMap_eq_of_forall₂ hclean fun p p' hp => hp.strictnessMismatch?]

theorem relatesPieces_remote (x : Exchange) :
    RelatesPieces x (List.Forall₂ (Participant.Gains IsRemote)) fun ys ys' => ys' = ys where
  nil := rfl
  append := fun hys hzs => by rw [hys, hzs]
  inside := fun part _ _ h => forall₂_inside part h
  drift := fun _ _ _ h => drifts_gains h
  presence := fun declared _ _ _ _ h => flatMap_eq_of_forall₂ h fun _ _ hp => hp.presence declared
  own := fun _ _ _ _ h => by rw [fieldMismatches_remote h]
  extra := fun fields _ _ _ h => flatMap_eq_of_forall₂ h fun _ _ hp => hp.extras fields

theorem forall₂_objects (h : List.Forall₂ (Participant.Gains A) ps ps') :
    List.Forall₂ (Participant.Gains A) (ps.filter (·.shape.kind = .object))
      (ps'.filter (·.shape.kind = .object)) :=
  List.rel_filter (fun p p' hp => by simp [hp.shape]) h

/-- The walk visits the same fields, with the same participants. -/
theorem Visited.before {fields : Payload} {qs' : List Participant}
    (hps : List.Forall₂ (Participant.Gains A) ps ps') (h : Visited fields ps' path qs' f) :
    ∃ qs, Visited fields ps path qs f ∧ List.Forall₂ (Participant.Gains A) qs qs' := by
  induction h with
  | field hf => exact ⟨_, .field hf, forall₂_inside _ hps⟩
  | member _ htype huncut hc ih =>
    obtain ⟨qs, hvisited, hqs⟩ := ih
    exact ⟨_, .member hvisited htype huncut hc, forall₂_inside _ (forall₂_objects hqs)⟩
  | item _ htype huncut hi ih =>
    obtain ⟨qs, hvisited, hqs⟩ := ih
    exact ⟨_, .item hvisited htype huncut hi, forall₂_inside (·.items) hqs⟩

end Gains

section Origin

variable {x : Exchange} {fields : List FieldSchema} {ps qs : List Participant} {path : String}
  {f : FieldSchema} {y : Finding}

theorem kind_of_mem_presence {declared : List String} {p : Participant}
    (h : y ∈ presence x declared f path p) : y.mismatch.kind ∉ ownKinds := by
  unfold presence at h
  grind [Finding.plain, Exchange.error, ownKinds]

theorem kind_of_mem_extras {p : Participant} (h : y ∈ extras x fields path p) :
    y.mismatch.kind ∉ ownKinds := by
  obtain ⟨c, -, rfl⟩ := List.mem_map.mp h
  simp [extra, Finding.plain, Exchange.error, ownKinds]

/-- A finding of the checks on fields, among those on an object, is one on a member or below it. -/
theorem exists_member_of_mem {declared : List String}
    (h : y ∈ objectFindings x fields path ps (memberFindings x declared path ps fields))
    (hkind : y.mismatch.kind ∈ ownKinds) :
    ∃ c ∈ fields, y ∈ fieldFindings x (FieldPath.join path c.name) (carriers declared c ps) c := by
  rw [objectFindings, List.mem_append] at h
  rcases h with hdrift | h
  · rw [kind_of_mem_drifts hdrift] at hkind
    simp [ownKinds] at hkind
  · split at h
    · cases h
    · rcases List.mem_append.mp h with hmember | hextra
      · rw [memberFindings_eq] at hmember
        obtain ⟨c, hc, hy⟩ := List.mem_flatMap.mp hmember
        rcases List.mem_append.mp hy with hpresence | hy
        · obtain ⟨p, -, hy⟩ := List.mem_flatMap.mp hpresence
          exact absurd hkind (kind_of_mem_presence hy)
        · exact ⟨c, hc, hy⟩
      · obtain ⟨p, -, hy⟩ := List.mem_flatMap.mp hextra
        exact absurd hkind (kind_of_mem_extras hy)

/-- The run below a visited field: each finding of the checks on fields is one at a visited field. -/
theorem exists_visited_of_mem_fieldFindings {whole : Payload} {all : List Participant}
    (hkind : y.mismatch.kind ∈ ownKinds) (hvisited : Visited whole all path qs f)
    (h : y ∈ fieldFindings x path qs f) :
    ∃ path' qs' f', Visited whole all path' qs' f' ∧ y.mismatch ∈ fieldMismatches x f' path' qs' := by
  induction f using FieldSchema.induction_inside generalizing path qs with
  | step f members item =>
    rw [fieldFindings_split] at h
    rcases List.mem_append.mp h with hown | hinside
    · obtain ⟨m, hm, rfl⟩ := List.mem_map.mp hown
      exact ⟨path, qs, f, hvisited, hm⟩
    · unfold insideFindings at hinside
      cases huncut : f.truncated with
      | true => simp [huncut] at hinside
      | false =>
        cases htype : f.type with
        | object =>
          simp only [huncut, htype] at hinside
          obtain ⟨c, hc, hy⟩ := exists_member_of_mem hinside hkind
          exact members c hc (.member hvisited htype huncut hc) hy
        | array =>
          simp only [huncut, htype] at hinside
          cases hitems : f.items with
          | none => simp [hitems, itemFindings] at hinside
          | some i =>
            rw [hitems] at hinside
            exact item i hitems (.item hvisited htype huncut hitems) hinside
        | _ => simp [huncut, htype] at hinside

end Origin

section Endpoint

variable {conventions : Conventions} {contract : Contract} {e : Endpoint}
  {bindings bindings' : List Binding}

/-- A mismatch is found by the checks of a participant at a field that the walk visits. -/
inductive FoundAt (conventions : Conventions) (contract : Contract) (e : Endpoint)
    (bindings : List Binding) (m : Mismatch) : Prop
  | mk {payload : PayloadKind} {fields : Payload} {path : String} {f : FieldSchema}
    {qs : List Participant} {q : Participant} (hfields : declaredFields? e payload = some fields)
    (hvisited : Visited fields (participants payload bindings) path qs f) (hq : q ∈ qs)
    (hm : firstMismatch? (exchangeOf conventions contract e payload) f path qs q = some m) :
    FoundAt conventions contract e bindings m

theorem foundAt_of_mem (hm : m ∈ compareEndpoint conventions contract e bindings)
    (hkind : m.kind ∈ ownKinds) : FoundAt conventions contract e bindings m := by
  have hundrifted : m ∈ undriftedMismatches conventions contract e bindings := by
    refine List.mem_filter.mpr ⟨hm, decide_eq_true ?_⟩
    intro hdrift
    simp [hdrift, ownKinds] at hkind
  have hpayload : ∃ payload, .plain m ∈ findingsOn conventions contract e bindings payload := by
    rw [undriftedMismatches_eq, List.mem_append] at hundrifted
    rcases hundrifted with h | h
    · exact ⟨.request, mem_undrifted.mp h⟩
    · exact ⟨.response, mem_undrifted.mp h⟩
  obtain ⟨payload, h⟩ := hpayload
  unfold findingsOn at h
  cases hfields : declaredFields? e payload with
  | none => simp [hfields] at h
  | some fields =>
    simp only [hfields, Option.map_some, Option.getD_some, payloadFindings_eq] at h
    obtain ⟨c, hc, hy⟩ := exists_member_of_mem h hkind
    obtain ⟨path, qs, f, hvisited, hown⟩ :=
      exists_visited_of_mem_fieldFindings hkind (.field hc) hy
    obtain ⟨q, hq, hfound⟩ :=
      List.mem_filterMap.mp ((fieldMismatches_perm _ f path qs).mem_iff.mp hown)
    exact .mk hfields hvisited hq hfound

/-- Each finding of some kinds is of a participant at a field that the walk visits, and whoever has one of
these kinds there had one before evidence was added. -/
structure NoneNew (A : Evidence → Prop) (K : MismatchKind → Prop) (conventions : Conventions)
    (contract : Contract) (e : Endpoint) (bindings bindings' : List Binding) : Prop where
  found : ∀ m ∈ compareEndpoint conventions contract e bindings', K m.kind →
    FoundAt conventions contract e bindings' m
  before : ∀ {payload fields path f qs'}, declaredFields? e payload = some fields →
    Visited fields (participants payload bindings') path qs' f →
    ∃ qs, Visited fields (participants payload bindings) path qs f ∧
      List.Forall₂ (fun q q' => q.Gains A q' ∧
        ((∃ m, firstMismatch? (exchangeOf conventions contract e payload) f path qs' q' = some m ∧
            K m.kind) →
          ∃ m, firstMismatch? (exchangeOf conventions contract e payload) f path qs q = some m ∧
            K m.kind)) qs qs'

theorem noneNew_of_gains {A : Evidence → Prop} {K : MismatchKind → Prop}
    (h : List.Forall₂ (Binding.Gains A) bindings bindings') (hK : ∀ k, K k → k ∈ ownKinds)
    (hcheck : ∀ {x f path qs qs' q q'}, List.Forall₂ (Participant.Gains A) qs qs' → q.Gains A q' →
      (∃ m, firstMismatch? x f path qs' q' = some m ∧ K m.kind) →
      ∃ m, firstMismatch? x f path qs q = some m ∧ K m.kind) :
    NoneNew A K conventions contract e bindings bindings' where
  found := fun m hm hkind => foundAt_of_mem hm (hK _ hkind)
  before := by
    intro payload fields path f qs' _ hvisited
    obtain ⟨qs, hbefore, hqs⟩ := hvisited.before (forall₂_participants payload h)
    refine ⟨qs, hbefore, hqs.imp fun q q' hq => ⟨hq, hcheck hqs hq⟩⟩

theorem noneNew_unit (h : List.Forall₂ (Binding.Gains (·.kind.IsScale)) bindings bindings') :
    NoneNew (·.kind.IsScale) (· = .unit) conventions contract e bindings bindings' := by
  apply noneNew_of_gains h
  · rintro _ rfl
    simp [ownKinds]
  · intro x f path qs qs' q q' hqs hq hunit
    rw [firstMismatch?_unit_iff] at hunit ⊢
    obtain ⟨hvalue, hreader, hsome⟩ := hunit
    have hcase := hq.caseTransforms_eq (fun v hv hc => by
      obtain ⟨⟨c, hscale⟩, t, ht⟩ := And.intro hv hc
      simp [hscale] at ht) (q.names f)
    have hsame : valueMismatch? x f path q' = valueMismatch? x f path q := by
      rw [valueMismatch?, hq.kindMismatch?, enumMismatch?_gains hq
        (fun v hv => IsConversion.not_literal (.inl hv)) hcase, valueMismatch?]
    exact ⟨hsame ▸ hvalue, hq.supplier ▸ hreader, isSome_unitMismatch?_of_gains hq hqs
      (fun v hv => IsConversion.not_render (.inl hv)) hsome⟩

theorem noneNew_enum (h : List.Forall₂ (Binding.Gains (·.kind.IsCase)) bindings bindings') :
    NoneNew (·.kind.IsCase) (fun k => k = .enum ∨ k = .case) conventions contract e bindings
      bindings' := by
  apply noneNew_of_gains h
  · rintro _ (rfl | rfl) <;> simp [ownKinds]
  · intro x f path qs qs' q q' _ hq henum
    rw [firstMismatch?_enum_iff] at henum ⊢
    rw [hq.kindMismatch?] at henum
    exact ⟨henum.1, isSome_enumMismatch?_of_gains hq
      (fun v hv => IsConversion.not_literal (.inr hv)) henum.2⟩

theorem reported_eq_nil_iff {ys : List Finding} : Finding.reported ys = [] ↔ ys = [] := by
  constructor
  · intro h
    rcases ys with _ | ⟨⟨m, _ | d⟩, ys⟩
    · rfl
    · simp [Finding.reported, Finding.reportedFrom] at h
    · simp [Finding.reported, Finding.reportedFrom] at h
  · rintro rfl
    rfl

end Endpoint

/-- More scalings and changes of case, of any scope, keep an exchange clean. More scalings give no
participant a finding on the unit of a field that it had none on, and more changes of case none on the
values. Far from the boundary neither they nor renderings change anything. -/
theorem conversions_only_excuse (conventions : Conventions) (contract : Contract) (e : Endpoint)
    (bindings bindings' : List Binding) :
    (List.Forall₂ (Binding.Gains IsConversion) bindings bindings' →
      compareEndpoint conventions contract e bindings = [] →
        compareEndpoint conventions contract e bindings' = []) ∧
    (List.Forall₂ (Binding.Gains (·.kind.IsScale)) bindings bindings' →
      NoneNew (·.kind.IsScale) (· = .unit) conventions contract e bindings bindings') ∧
    (List.Forall₂ (Binding.Gains (·.kind.IsCase)) bindings bindings' →
      NoneNew (·.kind.IsCase) (fun k => k = .enum ∨ k = .case) conventions contract e bindings
        bindings') ∧
    (List.Forall₂ (Binding.Gains IsRemote) bindings bindings' →
      compareEndpoint conventions contract e bindings' =
        compareEndpoint conventions contract e bindings) := by
  refine ⟨fun h hclean => ?_, noneNew_unit, noneNew_enum, fun h => ?_⟩
  · have hnil := endpointFindings_rel relatesPieces_conversions
      (fun payload => forall₂_participants payload h) (reported_eq_nil_iff.mp hclean)
    exact reported_eq_nil_iff.mpr hnil
  · unfold compareEndpoint
    rw [endpointFindings_rel relatesPieces_remote fun payload => forall₂_participants payload h]

def weighing (service : String) (side : Side) (unit : String) (evidence : List Evidence) : Binding :=
  { orderBinding service side .number with
    evidence
    response := some { Shape.plain "" .object default with
      children := [{ Shape.plain "weight" .number default with unit := some unit }] } }

/-- Kilograms are sent and grams are read, by code with some evidence. -/
def kilogramsRead (evidence : List Evidence) : List Binding :=
  [weighing "depot" .server "kg" [], weighing "web" .client "g" evidence]

def timesThousand (scope : EvidenceScope) : Evidence :=
  ⟨.scale ⟨.mul, .ofNat 1000⟩, some "weight", scope, default, ""⟩

def lowered : Evidence := ⟨.case .lower, some "weight", .unit, default, ""⟩

theorem kilogramsRead_gains {A : Evidence → Prop} {added vs vs' : List Evidence}
    (h : Interleave added vs vs') (hA : ∀ v ∈ added, A v) :
    List.Forall₂ (Binding.Gains A) (kilogramsRead vs) (kilogramsRead vs') :=
  .cons ⟨⟨[], .nil, by simp⟩, rfl⟩ (.cons ⟨⟨added, h, hA⟩, rfl⟩ .nil)

/-- The scaling excuses the reader at the call and not far from it, and nothing takes that back. -/
theorem kilograms_excused :
    compareEndpoint default default crateEndpoint (kilogramsRead [timesThousand .call]) = [] ∧
      compareEndpoint default default crateEndpoint
        (kilogramsRead [timesThousand .file, lowered, timesThousand .call]) = [] ∧
      (compareEndpoint default default crateEndpoint (kilogramsRead [])).map (·.kind) = [.unit] ∧
      NoneNew (·.kind.IsScale) (· = .unit) default default crateEndpoint (kilogramsRead [])
        (kilogramsRead [timesThousand .call]) ∧
      NoneNew (·.kind.IsCase) (fun k => k = .enum ∨ k = .case) default default crateEndpoint
        (kilogramsRead []) (kilogramsRead [lowered]) ∧
      compareEndpoint default default crateEndpoint (kilogramsRead [timesThousand .file]) =
        compareEndpoint default default crateEndpoint (kilogramsRead []) := by
  have hclean : compareEndpoint default default crateEndpoint
      (kilogramsRead [timesThousand .call]) = [] := by decide +kernel
  have hadded : Interleave [timesThousand .file, lowered] [timesThousand .call]
      [timesThousand .file, lowered, timesThousand .call] := .left (.left (.right .nil))
  refine ⟨hclean, ?_, by decide +kernel, ?_, ?_, ?_⟩
  · refine (conversions_only_excuse default default crateEndpoint _ _).1
      (kilogramsRead_gains hadded ?_) hclean
    simp [IsConversion, EvidenceKind.IsScale, EvidenceKind.IsCase, timesThousand, lowered]
  · refine (conversions_only_excuse default default crateEndpoint _ _).2.1
      (kilogramsRead_gains (Interleave.of_left _) ?_)
    simp [EvidenceKind.IsScale, timesThousand]
  · refine (conversions_only_excuse default default crateEndpoint _ _).2.2.1
      (kilogramsRead_gains (Interleave.of_left _) ?_)
    simp [EvidenceKind.IsCase, lowered]
  · refine (conversions_only_excuse default default crateEndpoint _ _).2.2.2
      (kilogramsRead_gains (Interleave.of_left _) ?_)
    simp [IsRemote, EvidenceKind.IsScale, timesThousand]

end Comparison

end Concord
