import Mathlib.Data.Finset.Basic
import Concord.Proofs.Carriers
import Concord.Proofs.VisitedFields

/-! A supplier is said to omit a field exactly if its shape reaches the object of the field, has
only known members there, none of which carries the field, and the field is required. Each supplier
is told once of each such field. -/
namespace Concord.Comparison

structure Omission where
  payload : PayloadKind
  /-- The place among the bindings. -/
  place : Nat
  binding : Binding
  /-- The turns of the walk to the field, the last one first. -/
  turns : List Turn
  path : String
  field : FieldSchema
  /-- The part of the shape that lacks the field. -/
  shape : Shape

def Omission.pair (o : Omission) : PayloadKind × Nat × List Turn := (o.payload, o.place, o.turns)

def Omission.report (conventions : Conventions) (contract : Contract) (e : Endpoint) (o : Omission) :
    Mismatch :=
  omission (exchangeOf conventions contract e o.payload) o.path ⟨o.binding, true, o.shape⟩

/-- A binding that writes a payload omits a required field of an object that its shape reaches. -/
inductive Omits (e : Endpoint) (bindings : List Binding) : Omission → Prop
  | mk {payload : PayloadKind} {place i : Nat} {b : Binding} {fields : Payload} {whole s : Shape}
    {turns : List Turn} {path : String} {siblings : List FieldSchema} {f : FieldSchema}
    (hfields : declaredFields? e payload = some fields) (hb : bindings[place]? = some b)
    (hsupplies : b.supplies payload = true) (hwhole : b.shape? payload = some whole)
    (hreaches : Reaches fields whole turns path (.object siblings) s)
    (hf : siblings[i]? = some f) (hdeclared : s.confidence = .declared)
    (hrequired : f.required = true) (hlacks : Lacks siblings f s) :
    Omits e bindings ⟨payload, place, b, .member i :: turns, FieldPath.join path f.name, f, s⟩

/-- The omission of the field at a place of an object by the binding at a place. -/
def Station.omission? (o : Station) (payload : PayloadKind) (g : FieldSchema × Nat)
    (b : Binding × Nat) : Option Omission :=
  (o.holder? payload b.1).bind fun p =>
    if omits (o.fields.map (·.name)) g.1 p then
      some ⟨payload, b.2, b.1, .member g.2 :: o.turns, FieldPath.join o.path g.1.name, g.1, p.shape⟩
    else none

def Station.omissions (payload : PayloadKind) (bindings : List Binding) (o : Station) :
    List Omission :=
  o.fields.zipIdx.flatMap fun g => bindings.zipIdx.flatMap fun b => (o.omission? payload g b).toList

def omissionsOn (e : Endpoint) (bindings : List Binding) (payload : PayloadKind) : List Omission :=
  ((declaredFields? e payload).map fun fields =>
    (stations fields).flatMap (Station.omissions payload bindings)).getD []

section Omissions

variable {e : Endpoint} {bindings : List Binding} {payload : PayloadKind} {o : Station} {a : Omission}

theorem omission?_eq_some_iff {g : FieldSchema × Nat} {b : Binding × Nat} :
    o.omission? payload g b = some a ↔
      ∃ whole s, b.1.shape? payload = some whole ∧ o.part whole = some s ∧
        b.1.supplies payload = true ∧ g.1.required = true ∧ s.confidence = .declared ∧
        Lacks o.fields g.1 s ∧ a =
          ⟨payload, b.2, b.1, .member g.2 :: o.turns, FieldPath.join o.path g.1.name, g.1, s⟩ := by
  simp only [Station.omission?, Option.bind_eq_some_iff, holder?_eq_some_iff,
    Option.ite_none_right_eq_some, Option.some.injEq, omits_iff]
  constructor
  · rintro ⟨_, ⟨whole, s, hwhole, hs, rfl⟩, ⟨hsupplies, hrequired, hdeclared, hlacks⟩, rfl⟩
    exact ⟨whole, s, hwhole, hs, hsupplies, hrequired, hdeclared, hlacks, rfl⟩
  · rintro ⟨whole, s, hwhole, hs, hsupplies, hrequired, hdeclared, hlacks, rfl⟩
    exact ⟨_, ⟨whole, s, hwhole, hs, rfl⟩, ⟨hsupplies, hrequired, hdeclared, hlacks⟩, rfl⟩

theorem Station.mem_omissions : a ∈ o.omissions payload bindings ↔
    ∃ f i b place, o.fields[i]? = some f ∧ bindings[place]? = some b ∧
      o.omission? payload (f, i) (b, place) = some a := by
  simp [Station.omissions, List.mem_zipIdx_iff_getElem?]

theorem mem_omissionsOn_iff : a ∈ omissionsOn e bindings payload ↔
    Omits e bindings a ∧ a.payload = payload := by
  have hon : a ∈ omissionsOn e bindings payload ↔ ∃ fields, declaredFields? e payload = some fields ∧
      ∃ o ∈ stations fields, a ∈ o.omissions payload bindings := by
    unfold omissionsOn
    cases declaredFields? e payload <;> simp
  simp only [hon, Station.mem_omissions, omission?_eq_some_iff]
  constructor
  · rintro ⟨fields, hfields, o, ho, f, i, b, place, hf, hb, whole, s, hwhole, hs, hsupplies, hrequired,
      hdeclared, hlacks, rfl⟩
    have hreaches := reaches_object_iff.mpr ⟨o.part, ho, hs⟩
    exact ⟨.mk hfields hb hsupplies hwhole hreaches hf hdeclared hrequired hlacks, rfl⟩
  · rintro ⟨h, rfl⟩
    cases h with
    | mk hfields hb hsupplies hwhole hreaches hf hdeclared hrequired hlacks =>
      obtain ⟨part, ho, hs⟩ := reaches_object_iff.mp hreaches
      exact ⟨_, hfields, _, ho, _, _, _, _, hf, hb, _, _, hwhole, hs, hsupplies, hrequired, hdeclared,
        hlacks, rfl⟩

/-- The keys of a list of lists are apart if a key tells the list that it is from. -/
theorem nodup_map_flatMap {α β γ δ : Type} {l : List α} {g : α → List β} {key : β → γ} {outer : α → δ}
    (hl : (l.map outer).Nodup)
    (htells : ∀ ⦃a b a' b'⦄, b ∈ g a → b' ∈ g a' → key b = key b' → outer a = outer a')
    (hg : ∀ a ∈ l, ((g a).map key).Nodup) : ((l.flatMap g).map key).Nodup := by
  rw [List.map_flatMap, List.nodup_flatMap]
  apply And.intro hg
  apply (List.pairwise_map.mp hl).imp
  intro a a' hne k hk hk'
  obtain ⟨b, hb, rfl⟩ := List.mem_map.mp hk
  obtain ⟨b', hb', hkey⟩ := List.mem_map.mp hk'
  exact hne (htells hb hb' hkey.symm)

theorem nodup_zipIdx_snd {α : Type} (l : List α) : (l.zipIdx.map (·.2)).Nodup := by
  rw [List.zipIdx_map_snd]
  exact List.nodup_range'

theorem pair_of_omission? {g : FieldSchema × Nat} {b : Binding × Nat}
    (h : a ∈ (o.omission? payload g b).toList) :
    a.pair = (payload, b.2, .member g.2 :: o.turns) := by
  obtain ⟨whole, s, -, -, -, -, -, -, rfl⟩ := omission?_eq_some_iff.mp (Option.mem_toList.mp h)
  rfl

theorem pair_of_mem_omissions (h : a ∈ o.omissions payload bindings) :
    ∃ i place, a.pair = (payload, place, .member i :: o.turns) := by
  obtain ⟨f, i, b, place, -, -, h⟩ := Station.mem_omissions.mp h
  exact ⟨i, place, pair_of_omission? (Option.mem_toList.mpr h)⟩

theorem Station.nodup_omissions : ((o.omissions payload bindings).map Omission.pair).Nodup := by
  -- the last turn tells the field, and the place the binding
  apply nodup_map_flatMap (nodup_zipIdx_snd o.fields)
  · intro g a g' a' ha ha' hpair
    obtain ⟨b, -, ha⟩ := List.mem_flatMap.mp ha
    obtain ⟨b', -, ha'⟩ := List.mem_flatMap.mp ha'
    simp_all [pair_of_omission? ha, pair_of_omission? ha']
  · intro g hg
    apply nodup_map_flatMap (nodup_zipIdx_snd bindings)
    · intro b a b' a' ha ha' hpair
      simp_all [pair_of_omission? ha, pair_of_omission? ha']
    · intro b hb
      cases o.omission? payload g b <;> simp

theorem nodup_omissionsOn : ((omissionsOn e bindings payload).map Omission.pair).Nodup := by
  unfold omissionsOn
  cases declaredFields? e payload with
  | none => simp
  | some fields =>
    -- the turns before the last tell the object
    apply nodup_map_flatMap (nodup_stations fields)
    · intro o a o' a' ha ha' hpair
      obtain ⟨i, place, ha⟩ := pair_of_mem_omissions ha
      obtain ⟨i', place', ha'⟩ := pair_of_mem_omissions ha'
      simp_all
    · intro o ho
      exact Station.nodup_omissions

def omissions (e : Endpoint) (bindings : List Binding) : List Omission :=
  [.request, .response].flatMap (omissionsOn e bindings)

theorem mem_omissions : a ∈ omissions e bindings ↔ Omits e bindings a := by
  simp only [omissions, List.mem_flatMap, mem_omissionsOn_iff]
  cases a.payload <;> simp

theorem nodup_omissions : ((omissions e bindings).map Omission.pair).Nodup := by
  have hpayloads : ([PayloadKind.request, .response].map id).Nodup := by decide
  apply nodup_map_flatMap hpayloads
  · intro payload a payload' a' ha ha' hpair
    rw [mem_omissionsOn_iff] at ha ha'
    rw [← ha.2, ← ha'.2]
    exact congrArg Prod.fst hpair
  · intro payload _
    exact nodup_omissionsOn

end Omissions

section Told

variable {conventions : Conventions} {contract : Contract} {e : Endpoint} {bindings : List Binding}
  {payload : PayloadKind} {kind : MismatchKind}

theorem filter_undrifted {ys : List Finding} (hys : ∀ y ∈ ys, Kinded y) (hkind : kind ≠ .drift) :
    (undrifted ys).filter (·.kind = kind) = (ofKind kind ys).map (·.mismatch) := by
  rw [undrifted, ofKind, List.filter_filterMap, ← List.filterMap_eq_map, List.filterMap_filter]
  apply List.filterMap_congr
  intro y hy
  have hnone : y.mismatch.kind = kind → y.drift = none := fun h => (hys y hy).mpr (h ▸ hkind)
  by_cases h : y.mismatch.kind = kind
  · simp [h, hnone h, Option.filter]
  · cases y.drift <;> simp [h, Option.filter]

theorem flatMap_zipIdx {α β : Type} (g : α → List β) (l : List α) :
    l.zipIdx.flatMap (fun a => g a.1) = l.flatMap g := by
  rw [← List.flatMap_map, List.zipIdx_map_fst]

theorem map_omission? {o : Station} (g : FieldSchema × Nat) (b : Binding × Nat) :
    (o.omission? payload g b).toList.map (Omission.report conventions contract e) =
      (o.holder? payload b.1).toList.flatMap fun p =>
        (ofKind .missing (presence (exchangeOf conventions contract e payload) (o.fields.map (·.name))
          g.1 (FieldPath.join o.path g.1.name) p)).map (·.mismatch) := by
  simp only [ofKind_presence, Station.omission?, Station.holder?]
  cases (b.1.shape? payload).bind o.part with
  | none => rfl
  | some s =>
    by_cases h : omits (o.fields.map (·.name)) g.1 ⟨b.1, b.1.supplies payload, s⟩ = true
    · have hsupplies : b.1.supplies payload = true := (omits_iff.mp h).1
      rw [hsupplies] at h
      simp [h, hsupplies, Omission.report, Finding.plain]
    · simp [h]

theorem Station.map_omissions (o : Station) :
    (o.omissions payload bindings).map (Omission.report conventions contract e) =
      (ofKind .missing (o.findings (exchangeOf conventions contract e payload)
        (participants payload bindings))).map (·.mismatch) := by
  have hdrifts : ofKind .missing (drifts (exchangeOf conventions contract e payload) o.path
      (holders o.part (participants payload bindings))) = [] := by
    apply ofKind_eq_nil
    intro y hy
    simp [kind_of_mem_drifts hy]
  rw [Station.findings, ofKind_append, hdrifts, List.nil_append, holders_participants,
    List.filterMap_eq_flatMap_toList, Station.omissions]
  simp only [ofKind_flatMap, List.map_flatMap, List.flatMap_assoc, map_omission?]
  rw [← flatMap_zipIdx _ o.fields]
  congr 1
  funext g
  rw [← flatMap_zipIdx _ bindings]

theorem map_omissionsOn :
    ((omissionsOn e bindings payload).map (Omission.report conventions contract e)).Perm
      ((ofKind .missing (findingsOn conventions contract e bindings payload)).map (·.mismatch)) := by
  unfold omissionsOn findingsOn
  cases declaredFields? e payload with
  | none => exact .nil
  | some fields =>
    have hkind : OfObjects .missing := by simp [OfObjects, ownKinds]
    have hscattered := payloadFindings_scattered hkind (exchangeOf conventions contract e payload)
      fields (participants payload bindings)
    simp only [Option.map_some, Option.getD_some, List.map_flatMap, Station.map_omissions]
    rw [← List.map_flatMap]
    exact hscattered.symm.map _

theorem filter_compareEndpoint (hkind : kind ≠ .drift) :
    (compareEndpoint conventions contract e bindings).filter (·.kind = kind) =
      [.request, .response].flatMap fun payload =>
        (ofKind kind (findingsOn conventions contract e bindings payload)).map (·.mismatch) := by
  have hfilter : (compareEndpoint conventions contract e bindings).filter (·.kind = kind) =
      (undriftedMismatches conventions contract e bindings).filter (·.kind = kind) := by
    rw [undriftedMismatches, List.filter_filter]
    apply List.filter_congr
    intro m _
    by_cases h : m.kind = kind <;> simp [h, hkind]
  rw [hfilter, undriftedMismatches_eq, List.filter_append, filter_undrifted (kinded_findingsOn .request) hkind,
    filter_undrifted (kinded_findingsOn .response) hkind]
  simp

end Told

/-- The findings of a field that is missing are exactly one for each pair of a binding and a field of the
schema that the walk of the binding's shape reaches, where the binding writes the payload, the part of the
shape around the field has only known members, the field is required, and no member there has its name, nor,
among those that no field has the name of, a name that is spelt like it. -/
theorem missing_exact (conventions : Conventions) (contract : Contract) (e : Endpoint)
    (bindings : List Binding) :
    ∃ omissions : Finset Omission, (∀ o, o ∈ omissions ↔ Omits e bindings o) ∧
      Set.InjOn Omission.pair omissions ∧
      (((compareEndpoint conventions contract e bindings).filter (·.kind = .missing) :
        List Mismatch) : Multiset Mismatch) =
        omissions.val.map (Omission.report conventions contract e) := by
  have hnodup : (omissions e bindings).Nodup := nodup_omissions.of_map _
  refine ⟨⟨omissions e bindings, hnodup⟩, fun o => mem_omissions, ?_, ?_⟩
  · intro o ho o' ho' hpair
    exact List.inj_on_of_nodup_map nodup_omissions ho ho' hpair
  · rw [filter_compareEndpoint (by simp)]
    apply Multiset.coe_eq_coe.mpr
    rw [omissions, List.map_flatMap]
    exact (List.Perm.flatMap_left _ fun payload _ => map_omissionsOn).symm

end Concord.Comparison
