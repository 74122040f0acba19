import Mathlib.Data.Sym.Sym2
import Concord.Proofs.VisitedFields
import Concord.Proofs.VisitedObjects

/-! Two services that use a type of one name with different members drift apart. A walk tells of it
where it meets the type first, once for a type and two services, whichever of the two comes first.
-/
namespace Concord.Comparison

open Std

variable {z : DriftSubject × Mismatch} {ys : List Finding}

/-- Two participants of different services have a type of one name, all of whose members are known, with
different members. -/
structure DriftsFrom (t : String) (a b : Participant) : Prop where
  services : a.service ≠ b.service
  types : a.shape.typeName = some t ∧ b.shape.typeName = some t
  declared : a.shape.confidence = .declared ∧ b.shape.confidence = .declared
  names : ¬∀ name, name ∈ a.shape.names ↔ name ∈ b.shape.names

def DriftSubject.of (t s₁ s₂ : String) : DriftSubject :=
  if compare s₁ s₂ = .lt then ⟨t, s₁, s₂⟩ else ⟨t, s₂, s₁⟩

def DriftSubject.pair (d : DriftSubject) : String × Sym2 String := (d.typeName, s(d.first, d.second))

/-- A mismatch says that the services of a pair define a type differently. -/
structure Tells (k : String × Sym2 String) (m : Mismatch) : Prop where
  rule : m.rule = .sharedTypeSync
  severity : m.severity = .error
  expected : m.expected = s!"one definition of {k.1}"
  observed : ∃ s₁ s₂ clauses, k.2 = s(s₁, s₂) ∧
    m.observed = s!"{k.1} differs between {s₁} and {s₂}: " ++ clauses

section Pair

variable {x : Exchange} {path t u s₁ s₂ r₁ r₂ : String} {a b : Participant} {y : Finding}

theorem DriftsFrom.symm (h : DriftsFrom t a b) : DriftsFrom t b a where
  services := h.services.symm
  types := h.types.symm
  declared := h.declared.symm
  names := fun hsame => h.names fun name => (hsame name).symm

theorem memberNames_eq_iff {s s' : Shape} :
    memberNames s = memberNames s' ↔ ∀ name, name ∈ s.names ↔ name ∈ s'.names := by
  constructor
  · intro h name
    have hmem : name ∈ memberNames s ↔ name ∈ memberNames s' := by rw [h]
    simpa [memberNames, Shape.names] using hmem
  · intro h
    apply eq_of_ascending (Text.ascending_dropRepeats_mergeSort _)
      (Text.ascending_dropRepeats_mergeSort _)
    simpa [Shape.names] using h

theorem pair_of : (DriftSubject.of t s₁ s₂).pair = (t, s(s₁, s₂)) := by
  unfold DriftSubject.of
  split
  · rfl
  · simp [DriftSubject.pair, Sym2.eq_swap]

theorem of_comm : DriftSubject.of t s₁ s₂ = DriftSubject.of t s₂ s₁ := by
  have hswap : compare s₂ s₁ = (compare s₁ s₂).swap := OrientedCmp.eq_swap
  unfold DriftSubject.of
  cases h : compare s₁ s₂ with
  | lt => simp [hswap, h]
  | eq => simp [LawfulEqCmp.eq_of_compare h]
  | gt => simp [hswap, h]

theorem of_eq_of_pair_eq (h : (DriftSubject.of t s₁ s₂).pair = (DriftSubject.of u r₁ r₂).pair) :
    DriftSubject.of t s₁ s₂ = DriftSubject.of u r₁ r₂ := by
  rw [pair_of, pair_of, Prod.mk.injEq, Sym2.eq_iff] at h
  rcases h with ⟨rfl, ⟨rfl, rfl⟩ | ⟨rfl, rfl⟩⟩
  · rfl
  · exact of_comm

theorem driftBetween?_eq_some (h : driftBetween? x path a b = some y) :
    ∃ t, DriftsFrom t a b ∧ y.drift = some (.of t a.service b.service) ∧
      Tells (t, s(a.service, b.service)) y.mismatch := by
  unfold driftBetween? at h
  split at h
  · cases h
  · next hservices =>
    split at h
    · next t u ht hu =>
      dsimp only at h
      split at h
      · cases h
      · next hdrifts =>
        simp only [bne_iff_ne, ne_eq, Bool.or_eq_true, beq_iff_eq, not_or, not_not] at hdrifts
        obtain ⟨⟨⟨rfl, ha⟩, hb⟩, hnames⟩ := hdrifts
        rw [memberNames_eq_iff] at hnames
        obtain rfl := Option.some.inj h
        exact ⟨t, ⟨by simpa using hservices, ⟨ht, hu⟩, ⟨ha, hb⟩, hnames⟩, rfl,
          ⟨rfl, rfl, rfl, _, _, _, rfl, rfl⟩⟩
    · cases h

theorem DriftsFrom.driftBetween? (h : DriftsFrom t a b) (x : Exchange) (path : String) :
    ∃ y, driftBetween? x path a b = some y ∧ y.drift = some (.of t a.service b.service) := by
  have hnames : memberNames a.shape ≠ memberNames b.shape := memberNames_eq_iff.not.mpr h.names
  unfold Comparison.driftBetween?
  simp [h.services, h.types, h.declared, hnames, DriftSubject.of]

theorem exists_of_mem_drifts {ps : List Participant} (h : y ∈ drifts x path ps) :
    ∃ a ∈ ps, ∃ b ∈ ps, driftBetween? x path a b = some y := by
  induction ps with
  | nil => cases h
  | cons p ps ih =>
    rw [drifts, List.mem_append, List.mem_filterMap] at h
    rcases h with ⟨q, hq, hy⟩ | h
    · exact ⟨p, List.mem_cons_self, q, List.mem_cons_of_mem _ hq, hy⟩
    · obtain ⟨a, ha, b, hb, hy⟩ := ih h
      exact ⟨a, List.mem_cons_of_mem _ ha, b, List.mem_cons_of_mem _ hb, hy⟩

/-- Two who drift apart are told of in the order in which they stand. -/
theorem DriftsFrom.exists_mem_drifts {ps : List Participant} (h : DriftsFrom t a b) (ha : a ∈ ps)
    (hb : b ∈ ps) : ∃ y ∈ drifts x path ps, y.drift = some (.of t a.service b.service) := by
  induction ps with
  | nil => cases ha
  | cons p ps ih =>
    simp only [drifts, List.mem_append, List.mem_filterMap]
    rcases List.mem_cons.mp ha with rfl | ha'
    · rcases List.mem_cons.mp hb with rfl | hb'
      · exact absurd rfl h.services
      · obtain ⟨y, hy, hdrift⟩ := h.driftBetween? x path
        exact ⟨y, .inl ⟨b, hb', hy⟩, hdrift⟩
    · rcases List.mem_cons.mp hb with rfl | hb'
      · obtain ⟨y, hy, hdrift⟩ := h.symm.driftBetween? x path
        exact ⟨y, .inl ⟨a, ha', hy⟩, hdrift.trans (congrArg some of_comm)⟩
      · obtain ⟨y, hy, hdrift⟩ := ih ha' hb'
        exact ⟨y, .inr hy, hdrift⟩

end Pair

/-- At an object of a payload, bindings of two services have a type of one name, all of whose members are
known, with different members. -/
inductive Drifted (e : Endpoint) (bindings : List Binding) (t : String) : String → String → Prop
  | mk {payload : PayloadKind} {fields : Payload} {turns : List Turn} {path : String}
    {siblings : List FieldSchema} {a b : Binding} {whole whole' s s' : Shape}
    (hfields : declaredFields? e payload = some fields) (ha : a ∈ bindings) (hb : b ∈ bindings)
    (hwhole : a.shape? payload = some whole) (hwhole' : b.shape? payload = some whole')
    (hs : Reaches fields whole turns path (.object siblings) s)
    (hs' : Reaches fields whole' turns path (.object siblings) s')
    (htype : s.typeName = some t) (htype' : s'.typeName = some t)
    (hdeclared : s.confidence = .declared) (hdeclared' : s'.confidence = .declared)
    (hnames : ¬∀ name, name ∈ s.names ↔ name ∈ s'.names) :
    Drifted e bindings t a.key.service b.key.service

def subjects (ys : List Finding) : List (DriftSubject × Mismatch) :=
  ys.filterMap fun y => y.drift.map (·, y.mismatch)

section Endpoint

variable {conventions : Conventions} {contract : Contract} {e : Endpoint} {bindings : List Binding}
  {t s₁ s₂ : String} {x : Exchange} {ps : List Participant} {y : Finding}

theorem Drifted.symm (h : Drifted e bindings t s₁ s₂) : Drifted e bindings t s₂ s₁ := by
  cases h with
  | mk hfields ha hb hwhole hwhole' hs hs' htype htype' hdeclared hdeclared' hnames =>
    exact .mk hfields hb ha hwhole' hwhole hs' hs htype' htype hdeclared' hdeclared
      fun hsame => hnames fun name => (hsame name).symm

theorem filter_drift_reportedFrom (h : ∀ y ∈ ys, Kinded y) (seen : List DriftSubject) :
    (Finding.reportedFrom seen ys).filter (·.kind = .drift) =
      (Keyed.firstsFrom (·.1) seen (subjects ys)).map (·.2) := by
  induction ys generalizing seen with
  | nil => rfl
  | cons y ys ih =>
    obtain ⟨hy, hys⟩ := List.forall_mem_cons.mp h
    obtain ⟨m, drift⟩ := y
    cases drift with
    | none =>
      have hkind : m.kind ≠ .drift := by simpa [Kinded] using hy
      simp [Finding.reportedFrom, subjects, hkind, ih hys]
    | some subject =>
      have hkind : m.kind = .drift := by simpa [Kinded] using hy
      have hsubjects : subjects (⟨m, some subject⟩ :: ys) = (subject, m) :: subjects ys := rfl
      rw [Finding.reportedFrom, hsubjects, Keyed.firstsFrom]
      split
      · exact ih hys seen
      · simp [hkind, ih hys]

theorem mem_subjects : z ∈ subjects ys ↔ ⟨z.2, some z.1⟩ ∈ ys := by
  simp only [subjects, List.mem_filterMap, Option.map_eq_some_iff]
  constructor
  · rintro ⟨⟨m, drift⟩, hy, d, rfl, rfl⟩
    exact hy
  · intro hz
    exact ⟨_, hz, z.1, rfl, rfl⟩

theorem ofKind_drift_findings (o : Station) :
    ofKind .drift (o.findings x ps) = drifts x o.path (holders o.part ps) := by
  have hpresence {f : FieldSchema} {path : String} (p : Participant) :
      ofKind .drift (presence x (o.fields.map (·.name)) f path p) = [] := by
    apply ofKind_eq_nil
    intro y hy
    unfold presence at hy
    grind [Finding.plain, Exchange.error]
  have hdrifts : ofKind .drift (drifts x o.path (holders o.part ps)) =
      drifts x o.path (holders o.part ps) := by
    apply List.filter_eq_self.mpr
    intro y hy
    simp [kind_of_mem_drifts hy]
  simp [Station.findings, hdrifts, hpresence]

theorem mem_ofKind_drift (h : ∀ y ∈ ys, Kinded y) {m : Mismatch} {d : DriftSubject} :
    ⟨m, some d⟩ ∈ ofKind .drift ys ↔ ⟨m, some d⟩ ∈ ys := by
  rw [ofKind, List.mem_filter, and_iff_left_iff_imp]
  intro hy
  have hkinded : Kinded ⟨m, some d⟩ := h _ hy
  simpa [Kinded] using hkinded

theorem mem_findingsOn_iff {payload : PayloadKind} {m : Mismatch} {d : DriftSubject} :
    ⟨m, some d⟩ ∈ findingsOn conventions contract e bindings payload ↔
      ∃ fields, declaredFields? e payload = some fields ∧ ∃ o ∈ stations fields,
        ⟨m, some d⟩ ∈ drifts (exchangeOf conventions contract e payload) o.path
          (bindings.filterMap (o.holder? payload)) := by
  have hkind : OfObjects .drift := by simp [OfObjects, ownKinds]
  rw [← mem_ofKind_drift (kinded_findingsOn payload)]
  unfold findingsOn
  cases declaredFields? e payload with
  | none => simp
  | some fields =>
    simp only [Option.map_some, Option.getD_some, (payloadFindings_scattered hkind ..).mem_iff,
      List.mem_flatMap, ofKind_drift_findings, holders_participants, Option.some.injEq, exists_eq_left']

/-- The drifts of an endpoint are those at the objects that a walk visits. -/
theorem mem_subjects_iff :
    z ∈ subjects (endpointFindings conventions contract e bindings) ↔
      ∃ payload fields, declaredFields? e payload = some fields ∧ ∃ o ∈ stations fields,
        ⟨z.2, some z.1⟩ ∈ drifts (exchangeOf conventions contract e payload) o.path
          (bindings.filterMap (o.holder? payload)) := by
  rw [mem_subjects, endpointFindings_eq, List.mem_append, mem_findingsOn_iff, mem_findingsOn_iff]
  constructor
  · rintro (h | h)
    · exact ⟨.request, h⟩
    · exact ⟨.response, h⟩
  · rintro ⟨_ | _, h⟩
    · exact .inl h
    · exact .inr h

theorem exists_drifted (hz : z ∈ subjects (endpointFindings conventions contract e bindings)) :
    ∃ t s₁ s₂, s₁ ≠ s₂ ∧ Drifted e bindings t s₁ s₂ ∧ z.1 = .of t s₁ s₂ ∧ Tells (t, s(s₁, s₂)) z.2 := by
  obtain ⟨payload, fields, hfields, o, ho, hy⟩ := mem_subjects_iff.mp hz
  obtain ⟨p, hp, q, hq, hdrift⟩ := exists_of_mem_drifts hy
  obtain ⟨t, hpq, hsubject, htells⟩ := driftBetween?_eq_some hdrift
  obtain ⟨a, ha, hp⟩ := List.mem_filterMap.mp hp
  obtain ⟨b, hb, hq⟩ := List.mem_filterMap.mp hq
  obtain ⟨whole, s, hwhole, hs, rfl⟩ := holder?_eq_some_iff.mp hp
  obtain ⟨whole', s', hwhole', hs', rfl⟩ := holder?_eq_some_iff.mp hq
  have hdrifted : Drifted e bindings t a.key.service b.key.service :=
    .mk hfields ha hb hwhole hwhole' (reaches_of_mem_stations ho hs) (reaches_of_mem_stations ho hs')
      hpq.types.1 hpq.types.2 hpq.declared.1 hpq.declared.2 hpq.names
  exact ⟨t, _, _, hpq.services, hdrifted, Option.some.inj hsubject, htells⟩

theorem Drifted.exists_mem_subjects (h : Drifted e bindings t s₁ s₂) (hne : s₁ ≠ s₂) :
    ∃ m, (.of t s₁ s₂, m) ∈ subjects (endpointFindings conventions contract e bindings) := by
  cases h with
  | @mk payload fields turns path siblings a b whole whole' s s' hfields ha hb hwhole hwhole' hs hs' htype
      htype' hdeclared hdeclared' hnames =>
    obtain ⟨part, ho, hs⟩ := reaches_object_iff.mp hs
    obtain ⟨part', ho', hs'⟩ := reaches_object_iff.mp hs'
    -- the turns tell the object, and so the part of each shape there
    cases List.inj_on_of_nodup_map (nodup_stations fields) ho ho' rfl
    have holds {c : Binding} {w r : Shape} (hc : c ∈ bindings) (hw : c.shape? payload = some w)
        (hr : part w = some r) : ⟨c, c.supplies payload, r⟩ ∈
          bindings.filterMap (Station.holder? ⟨turns, path, siblings, part⟩ payload) :=
      List.mem_filterMap.mpr ⟨c, hc, holder?_eq_some_iff.mpr ⟨w, r, hw, hr, rfl⟩⟩
    have hdrifts : DriftsFrom t ⟨a, a.supplies payload, s⟩ ⟨b, b.supplies payload, s'⟩ :=
      ⟨hne, ⟨htype, htype'⟩, ⟨hdeclared, hdeclared'⟩, hnames⟩
    obtain ⟨⟨m, _⟩, hy, rfl⟩ := hdrifts.exists_mem_drifts (holds ha hwhole hs) (holds hb hwhole' hs')
    exact ⟨m, mem_subjects_iff.mpr ⟨payload, fields, hfields, _, ho, hy⟩⟩

def driftsTold (conventions : Conventions) (contract : Contract) (e : Endpoint)
    (bindings : List Binding) : List (DriftSubject × Mismatch) :=
  Keyed.firsts (·.1) (subjects (endpointFindings conventions contract e bindings))

theorem filter_drift_compareEndpoint :
    (compareEndpoint conventions contract e bindings).filter (·.kind = .drift) =
      (driftsTold conventions contract e bindings).map (·.2) :=
  filter_drift_reportedFrom kinded_endpointFindings []

theorem exists_drifted_of_told (hz : z ∈ driftsTold conventions contract e bindings) :
    ∃ t s₁ s₂, s₁ ≠ s₂ ∧ Drifted e bindings t s₁ s₂ ∧ z.1 = .of t s₁ s₂ ∧ Tells (t, s(s₁, s₂)) z.2 :=
  exists_drifted (Keyed.mem_of_mem_firstsFrom hz)

theorem nodup_driftsTold : ((driftsTold conventions contract e bindings).map (·.1.pair)).Nodup := by
  have hsubjects := Keyed.nodup_map_firstsFrom (·.1) []
    (subjects (endpointFindings conventions contract e bindings))
  apply List.Nodup.map_on _ (hsubjects.of_map _)
  intro z hz z' hz' hpair
  apply List.inj_on_of_nodup_map hsubjects hz hz'
  obtain ⟨t, s₁, s₂, -, -, hz, -⟩ := exists_drifted_of_told hz
  obtain ⟨t', r₁, r₂, -, -, hz', -⟩ := exists_drifted_of_told hz'
  rw [hz, hz'] at hpair ⊢
  exact of_eq_of_pair_eq hpair

theorem mem_driftsTold_iff :
    (t, s(s₁, s₂)) ∈ (driftsTold conventions contract e bindings).map (·.1.pair) ↔
      s₁ ≠ s₂ ∧ Drifted e bindings t s₁ s₂ := by
  constructor
  · intro h
    obtain ⟨z, hz, hpair⟩ := List.mem_map.mp h
    obtain ⟨t', r₁, r₂, hne, hdrifted, hz, -⟩ := exists_drifted_of_told hz
    rw [hz, pair_of, Prod.mk.injEq, Sym2.eq_iff] at hpair
    rcases hpair with ⟨rfl, ⟨rfl, rfl⟩ | ⟨rfl, rfl⟩⟩
    · exact ⟨hne, hdrifted⟩
    · exact ⟨hne.symm, hdrifted.symm⟩
  · rintro ⟨hne, h⟩
    obtain ⟨m, hm⟩ := h.exists_mem_subjects hne
    have hsubject : .of t s₁ s₂ ∈ (driftsTold conventions contract e bindings).map (·.1) :=
      Keyed.mem_map_firsts.mpr (List.mem_map_of_mem hm)
    obtain ⟨z, hz, hof⟩ := List.mem_map.mp hsubject
    exact List.mem_map.mpr ⟨z, hz, by rw [hof, pair_of]⟩

end Endpoint

/-- For a type and two services there is one finding that the type has drifted if the walk of a payload
visits an object at which a binding of each of the services has the type, with all members known and not the
same names of members, and there is no finding otherwise. -/
theorem drift_told_once (conventions : Conventions) (contract : Contract) (e : Endpoint)
    (bindings : List Binding) :
    ∃ told : List (String × Sym2 String), told.Nodup ∧
      (∀ t s₁ s₂, (t, s(s₁, s₂)) ∈ told ↔ s₁ ≠ s₂ ∧ Drifted e bindings t s₁ s₂) ∧
      List.Forall₂ Tells told
        ((compareEndpoint conventions contract e bindings).filter (·.kind = .drift)) := by
  use (driftsTold conventions contract e bindings).map (·.1.pair)
  apply And.intro nodup_driftsTold
  apply And.intro fun t s₁ s₂ => mem_driftsTold_iff
  rw [filter_drift_compareEndpoint, List.forall₂_map_left_iff, List.forall₂_map_right_iff,
    List.forall₂_same]
  intro z hz
  obtain ⟨t, s₁, s₂, -, -, hsubject, htells⟩ := exists_drifted_of_told hz
  rwa [hsubject, pair_of]

end Concord.Comparison
