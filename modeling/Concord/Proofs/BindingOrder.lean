import Concord.Proofs.SharedTypes

/-! A comparison stops at the first supplier that disagrees with a reader and tells a drift once, so
its texts and places depend on the order of the bindings. What is found does not: kind, rule,
severity and field of the mismatches are the same in any order, each as often. -/
namespace Concord.Comparison

variable {y : Finding} {g : DriftSubject → MismatchKind × Rule × Severity × String}

/-- What a mismatch finds, without its texts and its place. -/
def digest (m : Mismatch) : MismatchKind × Rule × Severity × String :=
  (m.kind, m.rule, m.severity, m.field)

/-- Two walks find alike: the drifts are of the same subjects, and whatever was seen before, the same is
reported. -/
structure Alike (ys ys' : List Finding) : Prop where
  subjects : ∀ d, d ∈ ys.filterMap (·.drift) ↔ d ∈ ys'.filterMap (·.drift)
  reported : ∀ seen, ((Finding.reportedFrom seen ys).map digest).Perm
    ((Finding.reportedFrom seen ys').map digest)

section Reported

variable {seen seen' : List DriftSubject} {ys ys' zs zs' : List Finding}

theorem reportedFrom_congr (h : ∀ d, d ∈ seen ↔ d ∈ seen') (ys : List Finding) :
    Finding.reportedFrom seen ys = Finding.reportedFrom seen' ys := by
  induction ys generalizing seen seen' with
  | nil => rfl
  | cons y ys ih =>
    obtain ⟨m, drift⟩ := y
    cases drift with
    | none => rw [Finding.reportedFrom, Finding.reportedFrom, ih h]
    | some d =>
      have hcons : ∀ d', d' ∈ d :: seen ↔ d' ∈ d :: seen' := by
        intro d'
        rw [List.mem_cons, List.mem_cons, h d']
      simp only [Finding.reportedFrom, List.contains_eq_mem, h d, ih h, ih hcons]

theorem reportedFrom_append (seen : List DriftSubject) (ys zs : List Finding) :
    Finding.reportedFrom seen (ys ++ zs) = Finding.reportedFrom seen ys ++
      Finding.reportedFrom (ys.filterMap (·.drift) ++ seen) zs := by
  induction ys generalizing seen with
  | nil => rfl
  | cons y ys ih =>
    obtain ⟨m, drift⟩ := y
    cases drift with
    | none => simp [Finding.reportedFrom, ih]
    | some d =>
      simp only [List.cons_append, Finding.reportedFrom]
      split
      · next hseen =>
        rw [ih]
        congr 1
        apply reportedFrom_congr
        grind
      · rw [ih, List.cons_append]
        congr 2
        apply reportedFrom_congr
        grind

theorem Alike.append (h : Alike ys ys') (h' : Alike zs zs') : Alike (ys ++ zs) (ys' ++ zs') where
  subjects := by
    intro d
    simp only [List.filterMap_append, List.mem_append, h.subjects, h'.subjects]
  reported := by
    intro seen
    have hseen : ∀ d, d ∈ ys.filterMap (·.drift) ++ seen ↔ d ∈ ys'.filterMap (·.drift) ++ seen := by
      intro d
      rw [List.mem_append, List.mem_append, h.subjects d]
    rw [reportedFrom_append, reportedFrom_append, List.map_append, List.map_append,
      reportedFrom_congr hseen zs]
    exact (h.reported seen).append (h'.reported _)

theorem reportedFrom_plain (h : ∀ y ∈ ys, y.drift = none) (seen : List DriftSubject) :
    Finding.reportedFrom seen ys = ys.map (·.mismatch) := by
  induction ys with
  | nil => rfl
  | cons y ys ih =>
    obtain ⟨hy, hys⟩ := List.forall_mem_cons.mp h
    obtain ⟨m, drift⟩ := y
    obtain rfl : drift = none := hy
    rw [Finding.reportedFrom, ih hys, List.map_cons]

theorem alike_of_plain (h : ∀ y ∈ ys, y.drift = none) (h' : ∀ y ∈ ys', y.drift = none)
    (hperm : ((ys.map (·.mismatch)).map digest).Perm ((ys'.map (·.mismatch)).map digest)) :
    Alike ys ys' where
  subjects := by
    rw [List.filterMap_eq_nil_iff.mpr h, List.filterMap_eq_nil_iff.mpr h']
    exact fun d => .rfl
  reported := by
    intro seen
    rwa [reportedFrom_plain h, reportedFrom_plain h']

theorem map_fst_subjects (ys : List Finding) :
    (Comparison.subjects ys).map (·.1) = ys.filterMap (·.drift) := by
  rw [Comparison.subjects, List.map_filterMap]
  congr 1
  funext y
  cases y.drift <;> rfl

/-- Of drifts alone, if the subject tells the digest, the subjects that are new are reported. -/
theorem map_digest_reportedFrom (h : ∀ y ∈ ys, ∃ d, y.drift = some d ∧ digest y.mismatch = g d)
    (seen : List DriftSubject) :
    (Finding.reportedFrom seen ys).map digest =
      ((Keyed.firstsFrom (·.1) seen (Comparison.subjects ys)).map (·.1)).map g := by
  induction ys generalizing seen with
  | nil => rfl
  | cons y ys ih =>
    obtain ⟨⟨d, hd, hdigest⟩, hys⟩ := List.forall_mem_cons.mp h
    obtain ⟨m, drift⟩ := y
    obtain rfl : drift = some d := hd
    have hsubjects : Comparison.subjects (⟨m, some d⟩ :: ys) = (d, m) :: Comparison.subjects ys := rfl
    rw [Finding.reportedFrom, hsubjects, Keyed.firstsFrom]
    split
    · exact ih hys seen
    · rw [List.map_cons, List.map_cons, List.map_cons, ih hys, hdigest]

theorem alike_of_drifts (h : ∀ y ∈ ys, ∃ d, y.drift = some d ∧ digest y.mismatch = g d)
    (h' : ∀ y ∈ ys', ∃ d, y.drift = some d ∧ digest y.mismatch = g d)
    (hsubjects : ∀ d, d ∈ ys.filterMap (·.drift) ↔ d ∈ ys'.filterMap (·.drift)) : Alike ys ys' where
  subjects := hsubjects
  reported := by
    intro seen
    rw [map_digest_reportedFrom h, map_digest_reportedFrom h']
    apply List.Perm.map
    rw [List.perm_ext_iff_of_nodup (Keyed.nodup_map_firstsFrom _ _ _)
      (Keyed.nodup_map_firstsFrom _ _ _)]
    intro d
    rw [Keyed.mem_map_firstsFrom, Keyed.mem_map_firstsFrom, map_fst_subjects, map_fst_subjects,
      hsubjects d]

end Reported

section Pieces

variable {x : Exchange} {f : FieldSchema} {path : String} {ps ps' : List Participant}
  {p : Participant}

theorem typeName_of (t s₁ s₂ : String) : (DriftSubject.of t s₁ s₂).typeName = t := by
  unfold DriftSubject.of
  split <;> rfl

theorem digest_of_mem_drifts (h : y ∈ drifts x path ps) :
    ∃ d, y.drift = some d ∧ digest y.mismatch =
      (.drift, .sharedTypeSync, .error, if path.isEmpty then d.typeName else path) := by
  obtain ⟨a, -, b, -, hy⟩ := exists_of_mem_drifts h
  obtain ⟨t, hdrifts, hdrift, -⟩ := driftBetween?_eq_some hy
  have hnames : memberNames a.shape ≠ memberNames b.shape :=
    memberNames_eq_iff.not.mpr hdrifts.names
  refine ⟨_, hdrift, ?_⟩
  rw [typeName_of]
  simp only [driftBetween?, hdrifts.services, hdrifts.types.1, hdrifts.types.2, hdrifts.declared.1,
    hdrifts.declared.2, hnames, beq_iff_eq, bne_self_eq_false, Bool.or_self, Bool.false_or,
    if_false, Option.some.injEq] at hy
  simp [← hy, digest, Exchange.error]

theorem mem_driftSubjects_of_subset (h : ps ⊆ ps') {d : DriftSubject}
    (hd : d ∈ (drifts x path ps).filterMap (·.drift)) :
    d ∈ (drifts x path ps').filterMap (·.drift) := by
  obtain ⟨y, hy, hdrift⟩ := List.mem_filterMap.mp hd
  obtain ⟨a, ha, b, hb, hpair⟩ := exists_of_mem_drifts hy
  obtain ⟨t, hdrifts, hsubject, -⟩ := driftBetween?_eq_some hpair
  have htold : ∃ y' ∈ drifts x path ps', y'.drift = some (.of t a.service b.service) :=
    hdrifts.exists_mem_drifts (h ha) (h hb)
  obtain ⟨y', hy', hsubject'⟩ := htold
  exact List.mem_filterMap.mpr ⟨y', hy', hsubject'.trans (hsubject.symm.trans hdrift)⟩

theorem alike_drifts (path : String) (h : ps.Perm ps') :
    Alike (drifts x path ps) (drifts x path ps') := by
  apply alike_of_drifts (fun _ => digest_of_mem_drifts) (fun _ => digest_of_mem_drifts)
  intro d
  exact ⟨mem_driftSubjects_of_subset h.subset, mem_driftSubjects_of_subset h.symm.subset⟩

theorem arrivals_perm (h : ps.Perm ps') (unit : String) :
    (arrivals x f unit ps).Perm (arrivals x f unit ps') := by
  have hsuppliers := h.filter (·.supplier)
  unfold arrivals
  cases hps : ps.filter (·.supplier) with
  | nil =>
    rw [hps, List.nil_perm] at hsuppliers
    rw [hsuppliers]
  | cons s rest =>
    cases hps' : ps'.filter (·.supplier) with
    | nil =>
      rw [hps, hps', List.perm_nil] at hsuppliers
      cases hsuppliers
    | cons s' rest' =>
      rw [hps, hps'] at hsuppliers
      exact hsuppliers.filterMap _

theorem isSome_find?_perm {α : Type} {l l' : List α} (h : l.Perm l') (q : α → Bool) :
    (l.find? q).isSome = (l'.find? q).isSome := by
  rw [Bool.eq_iff_iff, List.find?_isSome, List.find?_isSome]
  exact exists_congr fun a => and_congr_left' h.mem_iff

/-- Another supplier may be found first, but one is found or none. -/
theorem isSome_unitMismatch?_perm (h : ps.Perm ps') :
    (unitMismatch? x f p ps path).isSome = (unitMismatch? x f p ps' path).isSome := by
  unfold unitMismatch?
  cases p.shape.unit.or f.unit with
  | none => rw [Option.bind_none, Option.bind_none]
  | some unit =>
    simp only [Option.bind_some]
    split
    · rfl
    · rw [Option.isSome_map, Option.isSome_map, isSome_find?_perm (arrivals_perm h unit)]

theorem isSome_formatMismatch?_perm (h : ps.Perm ps') :
    (formatMismatch? x f p ps path).isSome = (formatMismatch? x f p ps' path).isSome := by
  unfold formatMismatch?
  cases properFormat? p with
  | none => rw [Option.bind_none, Option.bind_none]
  | some mine =>
    simp only [Option.bind_some]
    split
    · rfl
    · split
      · rfl
      · rw [Option.isSome_map, Option.isSome_map, Bool.eq_iff_iff, List.findSome?_isSome_iff,
          List.findSome?_isSome_iff]
        exact exists_congr fun s => and_congr_left' (h.filter _).mem_iff

theorem digest_of_unitMismatch? {m : Mismatch} (h : unitMismatch? x f p ps path = some m) :
    digest m = (.unit, .strictnessParity, .error, path) := by
  obtain ⟨_, _, _, rfl⟩ := exists_disparity_of_unitMismatch? h
  rfl

theorem digest_of_formatMismatch? {m : Mismatch} (h : formatMismatch? x f p ps path = some m) :
    digest m = (.format, .strictnessParity, .error, path) := by
  obtain ⟨_, _, _, rfl⟩ := exists_disparity_of_formatMismatch? h
  rfl

theorem map_digest_eq {o o' : Option Mismatch} {k : MismatchKind × Rule × Severity × String}
    (h : ∀ m, o = some m → digest m = k) (h' : ∀ m, o' = some m → digest m = k)
    (hsome : o.isSome = o'.isSome) : o.map digest = o'.map digest := by
  cases o with
  | none =>
    cases o' with
    | none => rfl
    | some m' => cases hsome
  | some m =>
    cases o' with
    | none => cases hsome
    | some m' => rw [Option.map_some, Option.map_some, h m rfl, h' m' rfl]

theorem digest_firstMismatch?_perm (h : ps.Perm ps') :
    (firstMismatch? x f path ps p).map digest = (firstMismatch? x f path ps' p).map digest := by
  have hunit : (unitMismatch? x f p ps path).map digest = (unitMismatch? x f p ps' path).map digest :=
    map_digest_eq (fun _ => digest_of_unitMismatch?) (fun _ => digest_of_unitMismatch?)
      (isSome_unitMismatch?_perm h)
  have hformat : (formatMismatch? x f p ps path).map digest =
      (formatMismatch? x f p ps' path).map digest :=
    map_digest_eq (fun _ => digest_of_formatMismatch?) (fun _ => digest_of_formatMismatch?)
      (isSome_formatMismatch?_perm h)
  have hquantity : (quantityMismatch? x f path ps p).map digest =
      (quantityMismatch? x f path ps' p).map digest := by
    unfold quantityMismatch?
    split
    · exact hformat
    · rw [Option.map_or, Option.map_or, hunit, hformat]
  simp only [firstMismatch?_eq, Option.map_or, hquantity]

theorem alike_own (f : FieldSchema) (path : String) (h : ps.Perm ps') :
    Alike ((fieldMismatches x f path ps).map .plain) ((fieldMismatches x f path ps').map .plain) := by
  have hdigest (ps : List Participant) : ((fieldMismatches x f path ps).map digest).Perm
      (ps.filterMap fun p => (firstMismatch? x f path ps p).map digest) := by
    rw [← List.map_filterMap]
    exact (fieldMismatches_perm x f path ps).map digest
  have hsame : (fun p => (firstMismatch? x f path ps p).map digest) =
      fun p => (firstMismatch? x f path ps' p).map digest := by
    funext p
    exact digest_firstMismatch?_perm h
  have hperm : ((fieldMismatches x f path ps).map digest).Perm
      ((fieldMismatches x f path ps').map digest) :=
    calc ((fieldMismatches x f path ps).map digest).Perm _ := hdigest ps
      _ = ps.filterMap fun p => (firstMismatch? x f path ps' p).map digest := by rw [hsame]
      List.Perm _ _ := h.filterMap _
      List.Perm _ _ := (hdigest ps').symm
  apply alike_of_plain (by simp [Finding.plain]) (by simp [Finding.plain])
  simpa [Finding.plain, Function.comp_def] using hperm

theorem alike_flatMap {g : Participant → List Finding} (hg : ∀ p, ∀ y ∈ g p, y.drift = none)
    (h : ps.Perm ps') : Alike (ps.flatMap g) (ps'.flatMap g) := by
  have hplain (ps : List Participant) : ∀ y ∈ ps.flatMap g, y.drift = none := by
    intro y hy
    obtain ⟨p, -, hy⟩ := List.mem_flatMap.mp hy
    exact hg p y hy
  exact alike_of_plain (hplain ps) (hplain ps') (((h.flatMap_right g).map _).map _)

theorem drift_presence {declared : List String} (h : y ∈ presence x declared f path p) :
    y.drift = none := by
  unfold presence at h
  grind [Finding.plain]

theorem drift_extras {fields : List FieldSchema} (h : y ∈ extras x fields path p) : y.drift = none := by
  obtain ⟨c, -, rfl⟩ := List.mem_map.mp h
  rfl

theorem relatesPieces_perm (x : Exchange) : RelatesPieces x List.Perm Alike where
  nil := ⟨fun _ => .rfl, fun _ => .refl _⟩
  append := Alike.append
  inside := fun _ _ _ h => h.filterMap _
  drift := fun path _ _ h => alike_drifts path h
  presence := fun _ _ _ _ _ h => alike_flatMap (fun _ _ => drift_presence) h
  own := fun f path _ _ h => alike_own f path h
  extra := fun _ _ _ _ h => alike_flatMap (fun _ _ => drift_extras) h

end Pieces

/-- Bindings in another order give mismatches of the same kinds, rules, severities and fields, each as
often. -/
theorem compareEndpoint_order_free (conventions : Conventions) (contract : Contract) (e : Endpoint)
    {bindings bindings' : List Binding} (h : bindings.Perm bindings') :
    ((compareEndpoint conventions contract e bindings).map digest).Perm
      ((compareEndpoint conventions contract e bindings').map digest) := by
  have halike : Alike (endpointFindings conventions contract e bindings)
      (endpointFindings conventions contract e bindings') :=
    endpointFindings_rel relatesPieces_perm fun payload => h.filterMap _
  exact halike.reported []

def crateWeight : FieldSchema :=
  { orderNumber with name := "weight", type := .number, unit := some "g" }

def crateEndpoint : Endpoint := ⟨"GET", "/crate", none, [(200, [crateWeight])], []⟩

def crateBinding (service : String) (side : Side) (unit : Option String) : Binding :=
  { orderBinding service side .number with
    response := some { Shape.plain "" .object default with
      typeName := some "Crate"
      children := unit.toList.map fun u =>
        { Shape.plain "weight" .number default with unit := some u } } }

/-- Two services send the weight in different units, and a third one does not send it. -/
def crateBindings : List Binding :=
  [crateBinding "depot" .server (some "kg"), crateBinding "shop" .server (some "lb"),
    crateBinding "yard" .server none, crateBinding "web" .client (some "g")]

def weightsObserved (bindings : List Binding) : List String :=
  (fieldMismatches (exchangeOf default default crateEndpoint .response) crateWeight "weight"
    (carriers ["weight"] crateWeight (participants .response bindings))).map (·.observed)

/-- In reverse the reader disagrees with another service first, and the same is found. -/
theorem crates_in_reverse :
    weightsObserved crateBindings =
        ["depot (server) sends kilograms, web (client) reads grams without *1000 conversion"] ∧
      weightsObserved crateBindings.reverse ≠ weightsObserved crateBindings ∧
      ((compareEndpoint default default crateEndpoint crateBindings.reverse).map digest).Perm
        ((compareEndpoint default default crateEndpoint crateBindings).map digest) :=
  ⟨by decide +kernel, by decide +kernel,
    compareEndpoint_order_free default default crateEndpoint (List.reverse_perm crateBindings)⟩

end Concord.Comparison
