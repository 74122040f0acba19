import Concord.Proofs.Gathering
import Concord.Proofs.Selection

/-! No observation is lost and none counts twice. Each is united with the others of its key, or
makes one finding or one diagnostic at its place, or its file belongs to no service, which is said
once. -/
namespace Concord

open Std

variable {role : Role} {hinted : Option Role} {endpointId : Option String} {α : Type}
  {p : Outcome → Option α}

/-- A key names a contract of the manifest, an endpoint of that contract and a service. -/
structure Manifest.Declares (m : Manifest) (k : BindingKey) : Prop where
  endpoint : ∃ c ∈ m.contracts, c.id = k.contract ∧ ∃ e ∈ c.endpoints, e.id = k.endpoint
  service : ∃ s ∈ m.services, s.id = k.service

structure Candidate.In (c : Candidate) (contracts : List Contract) : Prop where
  contract : c.contract ∈ contracts
  endpoint : c.endpoint ∈ c.contract.endpoints

section Target

variable {m : Manifest} {o : Observation} {contracts : List Contract} {c : Candidate}

theorem mem_candidates {method : Option String} {path : String} {q : MatchQuality}
    (h : (q, c) ∈ m.candidates contracts method path) : c.In contracts := by
  simp only [Manifest.candidates, List.mem_flatMap, List.mem_filterMap, List.mem_filter] at h
  obtain ⟨contract, hcontract, endpoint, ⟨hendpoint, -⟩, hq⟩ := h
  obtain ⟨q', -, heq⟩ := Option.map_eq_some_iff.mp hq
  cases heq
  exact ⟨hcontract, hendpoint⟩

theorem mem_bestCandidates {cs : List (MatchQuality × Candidate)} (h : c ∈ bestCandidates cs) :
    ∃ q, (q, c) ∈ cs := by
  rw [bestCandidates, (RunningBest.keeps_foldl cs).kept] at h
  obtain ⟨⟨q, c'⟩, hmem, rfl⟩ := List.mem_map.mp h
  exact ⟨q, (List.mem_filter.mp hmem).1⟩

theorem in_of_bestEndpoint (h : m.bestEndpoint contracts o = .ok c) : c.In contracts := by
  unfold Manifest.bestEndpoint at h
  split at h
  · cases h
  · dsimp only at h
    split at h
    · cases h
    · next candidate hbest =>
      obtain rfl := Except.ok.inj h
      obtain ⟨q, hmem⟩ := mem_bestCandidates (hbest ▸ List.mem_singleton_self candidate)
      exact mem_candidates hmem
    · cases h

theorem bound_of_hintedTarget {service contractId : String}
    (h : m.hintedTarget o service hinted contractId endpointId = .bound c role) :
    c.In m.contracts ∧ c.contract.id = contractId ∧
      hinted.or (c.contract.roleOn? service o.side) = some role := by
  unfold Manifest.hintedTarget at h
  split at h
  · cases h
  · next contract hcontract =>
    have hmem : contract ∈ m.contracts := List.mem_of_find?_eq_some hcontract
    have hid : contract.id = contractId := by simpa using List.find?_some hcontract
    dsimp only at h
    split at h
    · split at h
      · next endpoint hendpoint =>
        split at h
        · next hrole =>
          cases h
          exact ⟨⟨hmem, List.mem_of_find?_eq_some hendpoint⟩, hid, hrole⟩
        · cases h
      · cases h
    · split at h
      · next candidate hbest =>
        obtain ⟨hone, hendpoint⟩ := in_of_bestEndpoint hbest
        obtain rfl : candidate.contract = contract := by simpa using hone
        split at h
        · next hrole =>
          cases h
          exact ⟨⟨hmem, hendpoint⟩, hid, hrole⟩
        · cases h
      · cases h

theorem bound_of_openTarget {service : String}
    (h : m.openTarget o service hinted endpointId = .bound c role) :
    c.In (m.contracts.filter fun c => !(c.rolesOf service).isEmpty) ∧
      hinted.or (c.contract.roleOn? service o.side) = some role := by
  unfold Manifest.openTarget at h
  dsimp only at h
  split at h
  · split at h
    · cases h
    · next id candidate hnamed =>
      have hmem := hnamed ▸ List.mem_singleton_self candidate
      obtain ⟨contract, hcontract, hmem⟩ := List.mem_flatMap.mp hmem
      obtain ⟨endpoint, hendpoint, rfl⟩ := List.mem_map.mp hmem
      split at h
      · next hrole =>
        cases h
        exact ⟨⟨hcontract, (List.mem_filter.mp hendpoint).1⟩, hrole⟩
      · cases h
    · cases h
  · split at h
    · next candidate hbest =>
      split at h
      · next hrole =>
        cases h
        exact ⟨in_of_bestEndpoint hbest, hrole⟩
      · cases h
    · cases h

/-- What it takes to bind an observation to an endpoint in a role: the manifest declares the endpoint,
the role is the one that the hint gives or else the one of the service, and the service is a party to
the contract or the hint names the contract. -/
structure Manifest.Binds (m : Manifest) (o : Observation) (service : String) (c : Candidate)
    (role : Role) : Prop where
  declared : c.In m.contracts
  role : (o.hint.bind (·.role)).or (c.contract.roleOn? service o.side) = some role
  party : c.contract.rolesOf service ≠ [] ∨ o.hint.bind (·.contract) = some c.contract.id

theorem binds_of_target {service : String} (h : m.target o service = .bound c role) :
    m.Binds o service c role := by
  unfold Manifest.target at h
  dsimp only at h
  split at h
  · next contractId hhint =>
    obtain ⟨hin, hid, hrole⟩ := bound_of_hintedTarget h
    exact ⟨hin, hrole, .inr (hid ▸ hhint)⟩
  · obtain ⟨hin, hrole⟩ := bound_of_openTarget h
    obtain ⟨hmem, hparty⟩ := List.mem_filter.mp hin.contract
    exact ⟨⟨hmem, hin.endpoint⟩, hrole, .inl (by simpa using hparty)⟩

end Target

/-- What may become of an observation: a binding of a declared key at its place, a finding about what
its target contradicts or a diagnostic, both at its place, or nothing of its own. -/
inductive Becomes (m : Manifest) (o : Observation) : Outcome → Prop
  | bound {b : Binding} (declared : m.Declares b.key) (test : b.key.inTest = o.inTest)
    (place : b.location = o.location) (places : b.locations = [o.location]) : Becomes m o (.bound b)
  | contradicts {service : String} {k : Contradiction} (h : m.target o service = .contradicts k) :
    Becomes m o (.contradicts (k.mismatch o.location))
  | unbound (u : Unbound) : Becomes m o (.unbound (u.diagnostic o.location))
  | skipped : Becomes m o .skipped

section Outcomes

variable {m : Manifest} {maxDepth : Nat} {tables : List (String × TypeTable)}

theorem becomes_outcome (o : Observation) (service : String) :
    Becomes m o (m.outcome maxDepth tables o service) := by
  unfold Manifest.outcome
  split
  · exact .unbound _
  · next hservice =>
    cases htarget : m.target o service with
    | bound candidate role =>
      have hin := (binds_of_target htarget).declared
      obtain ⟨s, hs⟩ : ∃ s, m.service? service = some s :=
        Option.ne_none_iff_exists'.mp (by simpa using hservice)
      have hid : s.id = service := by simpa using List.find?_some hs
      refine .bound ⟨?_, ⟨s, List.mem_of_find?_eq_some hs, hid⟩⟩ rfl rfl rfl
      exact ⟨candidate.contract, hin.contract, rfl, candidate.endpoint, hin.endpoint, rfl⟩
    | contradicts k => exact .contradicts htarget
    | unbound u => exact .unbound u

end Outcomes

section File

variable (m : Manifest) (roots : List Root) (maxDepth : Nat) (tables : List (String × TypeTable))

/-- The service that an observation of a file is of: the one that its hint names, or else the owner of
the file. -/
def Manifest.serviceOf? (f : FileExtraction) (o : Observation) : Option String :=
  (o.hint.bind (·.service)).or (m.owner? roots f)

/-- What becomes of an observation of a file on its own; it is skipped if it is of no service. -/
def Manifest.outcomeIn (f : FileExtraction) (o : Observation) : Outcome :=
  match m.serviceOf? roots f o with
  | some service => m.outcome maxDepth tables o service
  | none => .skipped

variable {m roots maxDepth tables} {f : FileExtraction}

/-- A file to which a hint gives a service has an owner, so the observations of a file are all of a
service or none is. -/
theorem serviceOf?_eq_none_iff {o : Observation} (ho : o ∈ f.observations) :
    m.serviceOf? roots f o = none ↔ m.owner? roots f = none := by
  have hhint (h : m.owner? roots f = none) : o.hint.bind (·.service) = none := by
    rw [Manifest.owner?, Option.or_eq_none_iff] at h
    exact List.findSome?_eq_none_iff.mp h.2 o ho
  rw [Manifest.serviceOf?, Option.or_eq_none_iff]
  exact ⟨And.right, fun h => ⟨hhint h, h⟩⟩

theorem becomes_outcomeIn (o : Observation) :
    Becomes m o (m.outcomeIn roots maxDepth tables f o) := by
  unfold Manifest.outcomeIn
  split
  · exact becomes_outcome o _
  · exact .skipped

theorem outcomeIn_eq_skipped_iff {o : Observation} (ho : o ∈ f.observations) :
    m.outcomeIn roots maxDepth tables f o = .skipped ↔ m.owner? roots f = none := by
  rw [← serviceOf?_eq_none_iff ho, Manifest.outcomeIn]
  cases m.serviceOf? roots f o with
  | none => simp
  | some service =>
    have hne : m.outcome maxDepth tables o service ≠ .skipped := by
      unfold Manifest.outcome
      split
      · simp
      · split <;> simp
    simp [hne]

theorem fileOutcomes_of_owner {reported : Bool} {os : List Observation}
    (h : m.owner? roots f ≠ none) :
    m.fileOutcomes maxDepth tables ⟨f, m.owner? roots f⟩ reported os =
      os.map (m.outcomeIn roots maxDepth tables f) := by
  induction os with
  | nil => rfl
  | cons o os ih =>
    rw [Manifest.fileOutcomes, List.map_cons, Manifest.outcomeIn, Manifest.serviceOf?]
    split
    · next service hservice => rw [ih, hservice]
    · next hnone => exact absurd (Option.or_eq_none_iff.mp hnone).2 h

/-- Of a file that belongs to no service the first observation says so, and the others are skipped. -/
theorem fileOutcomes_of_no_owner (h : m.owner? roots f = none) :
    m.fileOutcomes maxDepth tables ⟨f, m.owner? roots f⟩ false f.observations =
      match f.observations with
      | [] => []
      | o :: os =>
        .unbound ((Unbound.noOwner f.path).diagnostic o.location) :: os.map fun _ => .skipped := by
  have hnone : ∀ o ∈ f.observations, (o.hint.bind (·.service)).or (m.owner? roots f) = none :=
    fun o ho => (serviceOf?_eq_none_iff ho).mpr h
  have hrest {os : List Observation}
      (hos : ∀ o ∈ os, (o.hint.bind (·.service)).or (m.owner? roots f) = none) :
      m.fileOutcomes maxDepth tables ⟨f, m.owner? roots f⟩ true os = os.map fun _ => .skipped := by
    induction os with
    | nil => rfl
    | cons o os ih =>
      obtain ⟨ho, hos⟩ := List.forall_mem_cons.mp hos
      simp [Manifest.fileOutcomes, ho, ih hos]
  cases hos : f.observations with
  | nil => rfl
  | cons o os =>
    rw [hos] at hnone
    obtain ⟨ho, hos⟩ := List.forall_mem_cons.mp hnone
    simp [Manifest.fileOutcomes, ho, hrest hos]

/-- What is neither a diagnostic nor skipped is the same as if each observation stood alone. -/
theorem filterMap_fileOutcomes (hunbound : ∀ d, p (.unbound d) = none) (hskipped : p .skipped = none) :
    (m.fileOutcomes maxDepth tables ⟨f, m.owner? roots f⟩ false f.observations).filterMap p =
      (f.observations.map (m.outcomeIn roots maxDepth tables f)).filterMap p := by
  by_cases h : m.owner? roots f = none
  · have halone : f.observations.map (m.outcomeIn roots maxDepth tables f) =
        f.observations.map fun _ => .skipped :=
      List.map_congr_left fun o ho => (outcomeIn_eq_skipped_iff ho).mpr h
    rw [fileOutcomes_of_no_owner h, halone]
    cases f.observations with
    | nil => rfl
    | cons o os => simp [hunbound, hskipped]
  · rw [fileOutcomes_of_owner h]

theorem diagnostic_noOwner (path : String) (location : Location) :
    (Unbound.noOwner path).diagnostic location =
      ⟨.ambiguousBinding, location, path ++ " belongs to no declared service"⟩ := rfl

/-- The diagnostics of a file: one if it belongs to no service, or else those of its observations. -/
theorem diagnostics_fileOutcomes :
    (m.fileOutcomes maxDepth tables ⟨f, m.owner? roots f⟩ false f.observations).filterMap
        (·.diagnostic?) =
      if m.owner? roots f = none then
        (f.observations.head?.map fun o =>
          ⟨.ambiguousBinding, o.location, f.path ++ " belongs to no declared service"⟩).toList
      else (f.observations.map (m.outcomeIn roots maxDepth tables f)).filterMap (·.diagnostic?) := by
  by_cases h : m.owner? roots f = none
  · rw [if_pos h, fileOutcomes_of_no_owner h]
    cases f.observations with
    | nil => rfl
    | cons o os => simp [Outcome.diagnostic?, diagnostic_noOwner]
  · rw [if_neg h, fileOutcomes_of_owner h]

end File

section Project

variable (m : Manifest) (roots : List Root) (maxDepth : Nat) (files : List FileExtraction)

def Manifest.fate (f : FileExtraction) (o : Observation) : Outcome :=
  m.outcomeIn roots maxDepth (typeTables (files.map fun f => ⟨f, m.owner? roots f⟩)) f o

def Manifest.sightings : List Binding :=
  files.flatMap fun f => f.observations.filterMap fun o => (m.fate roots maxDepth files f o).binding?

/-- All observations of a project are accounted for in a set of bindings. -/
structure Accounted (s : BindingSet) : Prop where
  /-- Each observation goes one way. -/
  becomes : ∀ f ∈ files, ∀ o ∈ f.observations, Becomes m o (m.fate roots maxDepth files f o)
  /-- Those that are skipped are those of files without a service. -/
  skipped : ∀ f ∈ files, ∀ o ∈ f.observations,
    m.fate roots maxDepth files f o = .skipped ↔ m.owner? roots f = none
  /-- There is one finding for each that contradicts the manifest. -/
  mismatches : s.mismatches = files.flatMap fun f => f.observations.filterMap fun o =>
    (m.fate roots maxDepth files f o).mismatch?
  /-- There is one diagnostic for each that is bound to nothing, and one for each file without a
  service. -/
  diagnostics : s.diagnostics = files.flatMap fun f =>
    if m.owner? roots f = none then
      (f.observations.head?.map fun o =>
        ⟨.ambiguousBinding, o.location, f.path ++ " belongs to no declared service"⟩).toList
    else f.observations.filterMap fun o => (m.fate roots maxDepth files f o).diagnostic?
  /-- Keys ascend strictly. -/
  keys : s.bindings.Pairwise fun a b => a.key.compare b.key = .lt
  /-- A key has a binding if something is bound to it. -/
  bound_iff : ∀ k, (∃ b ∈ s.bindings, b.key = k) ↔ ∃ f ∈ files, ∃ o ∈ f.observations, ∃ b,
    m.fate roots maxDepth files f o = .bound b ∧ b.key = k
  /-- A binding is the union of all that is bound to its key. -/
  union : ∀ b ∈ s.bindings, ∃ first rest,
    (m.sightings roots maxDepth files).filter (·.key = b.key) = first :: rest ∧
      b = rest.foldl Binding.absorb first
  /-- Its places ascend strictly and start with its own. -/
  placed : ∀ b ∈ s.bindings, b.Placed
  /-- They are those of the observations that are bound to its key. -/
  mem_locations : ∀ b ∈ s.bindings, ∀ l, l ∈ b.locations ↔ ∃ f ∈ files, ∃ o ∈ f.observations, ∃ a,
    m.fate roots maxDepth files f o = .bound a ∧ a.key = b.key ∧ o.location = l
  declared : ∀ b ∈ s.bindings, m.Declares b.key

variable {m roots maxDepth files}

theorem mem_sightings {b : Binding} :
    b ∈ m.sightings roots maxDepth files ↔ ∃ f ∈ files, ∃ o ∈ f.observations,
      m.fate roots maxDepth files f o = .bound b := by
  simp only [Manifest.sightings, List.mem_flatMap, List.mem_filterMap, Outcome.binding?_eq_some_iff]

/-- A binding that a single observation makes is of a declared key, at the one place of it. -/
theorem becomes_of_fate {f : FileExtraction} {o : Observation} {b : Binding}
    (h : m.fate roots maxDepth files f o = .bound b) :
    m.Declares b.key ∧ b.location = o.location ∧ b.locations = [o.location] := by
  have hbecomes : Becomes m o (.bound b) := h ▸ becomes_outcomeIn o
  cases hbecomes with
  | bound declared _ place places => exact ⟨declared, place, places⟩

theorem placed_of_mem_sightings {b : Binding} (h : b ∈ m.sightings roots maxDepth files) :
    b.Placed := by
  obtain ⟨f, -, o, -, hfate⟩ := mem_sightings.mp h
  obtain ⟨-, hplace, hplaces⟩ := becomes_of_fate hfate
  constructor
  · simp [hplaces]
  · simp [hplaces, hplace]
  · simp [hplaces, hplace, ReflCmp.compare_self]

theorem filterMap_outcomes (hunbound : ∀ d, p (.unbound d) = none) (hskipped : p .skipped = none) :
    (m.outcomes roots maxDepth files).filterMap p = files.flatMap fun f =>
      f.observations.filterMap fun o => p (m.fate roots maxDepth files f o) := by
  rw [Manifest.outcomes, List.flatMap_map, List.filterMap_flatMap]
  congr
  funext f
  rw [filterMap_fileOutcomes hunbound hskipped, List.filterMap_map]
  rfl

theorem bindings_bind :
    (m.bind roots maxDepth files).bindings = Binding.gather (m.sightings roots maxDepth files) := by
  rw [Manifest.bind, bindings_ofOutcomes, filterMap_outcomes (fun _ => rfl) rfl]
  rfl

theorem exists_binding_iff {k : BindingKey} :
    (∃ b ∈ (m.bind roots maxDepth files).bindings, b.key = k) ↔
      ∃ f ∈ files, ∃ o ∈ f.observations, ∃ b, m.fate roots maxDepth files f o = .bound b ∧
        b.key = k := by
  rw [bindings_bind, Binding.exists_gathered_iff]
  constructor
  · rintro ⟨b, hb, hkey⟩
    obtain ⟨f, hf, o, ho, hfate⟩ := mem_sightings.mp hb
    exact ⟨f, hf, o, ho, b, hfate, hkey⟩
  · rintro ⟨f, hf, o, ho, b, hfate, hkey⟩
    exact ⟨b, mem_sightings.mpr ⟨f, hf, o, ho, hfate⟩, hkey⟩

/-- Binding accounts for every observation. -/
theorem observations_accounted (m : Manifest) (roots : List Root) (maxDepth : Nat)
    (files : List FileExtraction) :
    Accounted m roots maxDepth files (m.bind roots maxDepth files) := by
  have hunion {b : Binding} (hb : b ∈ (m.bind roots maxDepth files).bindings) :=
    Binding.exists_union_of_mem_gather (bindings_bind ▸ hb)
  have hsightings {b a first : Binding} {rest : List Binding}
      (h : (m.sightings roots maxDepth files).filter (·.key = b.key) = first :: rest) :
      a ∈ first :: rest ↔ a ∈ m.sightings roots maxDepth files ∧ a.key = b.key := by
    rw [← h, List.mem_filter, decide_eq_true_iff]
  constructor
  case becomes =>
    intro f _ o _
    exact becomes_outcomeIn o
  case skipped =>
    intro f _ o ho
    exact outcomeIn_eq_skipped_iff ho
  case mismatches =>
    rw [Manifest.bind, mismatches_ofOutcomes, filterMap_outcomes (fun _ => rfl) rfl]
  case diagnostics =>
    rw [Manifest.bind, diagnostics_ofOutcomes, Manifest.outcomes, List.flatMap_map,
      List.filterMap_flatMap]
    congr
    funext f
    rw [diagnostics_fileOutcomes, List.filterMap_map]
    rfl
  case keys =>
    rw [bindings_bind]
    exact Binding.keySorted_gather _
  case bound_iff =>
    intro k
    exact exists_binding_iff
  case union =>
    intro b hb
    exact hunion hb
  case placed =>
    intro b hb
    obtain ⟨first, rest, hrest, rfl⟩ := hunion hb
    apply Binding.placed_foldl_absorb
    intro a ha
    exact placed_of_mem_sightings ((hsightings hrest).mp ha).1
  case mem_locations =>
    intro b hb l
    obtain ⟨first, rest, hrest, heq⟩ := hunion hb
    have hunited : l ∈ b.locations ↔ ∃ a ∈ first :: rest, l ∈ a.locations := by
      rw [heq]
      exact Binding.mem_locations_foldl_absorb
    rw [hunited]
    constructor
    · rintro ⟨a, ha, hl⟩
      obtain ⟨hmem, hkey⟩ := (hsightings hrest).mp ha
      obtain ⟨f, hf, o, ho, hfate⟩ := mem_sightings.mp hmem
      rw [(becomes_of_fate hfate).2.2, List.mem_singleton] at hl
      exact ⟨f, hf, o, ho, a, hfate, hkey, hl.symm⟩
    · rintro ⟨f, hf, o, ho, a, hfate, hkey, rfl⟩
      have hmem := mem_sightings.mpr ⟨f, hf, o, ho, hfate⟩
      refine ⟨a, (hsightings hrest).mpr ⟨hmem, hkey⟩, ?_⟩
      rw [(becomes_of_fate hfate).2.2]
      exact List.mem_singleton_self o.location
  case declared =>
    intro b hb
    obtain ⟨f, -, o, -, a, hfate, hkey⟩ := exists_binding_iff.mp ⟨b, hb, rfl⟩
    exact hkey ▸ (becomes_of_fate hfate).1

end Project

end Concord
