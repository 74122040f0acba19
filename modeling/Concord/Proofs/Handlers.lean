import Concord.Convention.Verification
import Concord.Proofs.CleanInput

/-! The handlers of a contract that asks for verification are judged together: one that checks no
signature stays unmentioned beside one that does. -/
namespace Concord.Comparison

open Std

/-- One of the bindings, and none of them is at a place before it. -/
structure AtLeastPlace (b : Binding) (bs : List Binding) : Prop where
  mem : b ∈ bs
  le : ∀ a ∈ bs, (b.location.compare a.location).isLE = true

theorem atLeastPlace_foldl (bs : List Binding) (b : Binding) :
    AtLeastPlace (bs.foldl (fun best b =>
      if b.location.compare best.location = .lt then b else best) b) (b :: bs) := by
  induction bs generalizing b with
  | nil => exact ⟨by simp, by simp [ReflCmp.isLE_rfl]⟩
  | cons a bs ih =>
    rw [List.foldl_cons]
    by_cases h : a.location.compare b.location = .lt
    · rw [if_pos h]
      obtain ⟨hmem, hle⟩ := ih a
      have hb := TransCmp.isLE_trans (hle a List.mem_cons_self) (Ordering.isLE_of_eq_lt h)
      exact ⟨List.mem_cons_of_mem _ hmem, List.forall_mem_cons.mpr ⟨hb, hle⟩⟩
    · rw [if_neg h]
      obtain ⟨hmem, hle⟩ := ih b
      obtain ⟨hb, hbs⟩ := List.forall_mem_cons.mp hle
      have hba : (b.location.compare a.location).isLE = true :=
        Ordering.ne_gt_iff_isLE.mp fun hgt => h (OrientedCmp.lt_of_gt hgt)
      have ha := TransCmp.isLE_trans hb hba
      refine ⟨?_, List.forall_mem_cons.mpr ⟨hb, List.forall_mem_cons.mpr ⟨ha, hbs⟩⟩⟩
      exact (List.mem_cons.mp hmem).elim (fun h => by rw [h]; exact List.mem_cons_self)
        fun h => List.mem_cons_of_mem _ (List.mem_cons_of_mem _ h)

theorem exists_firstBinding {bs : List Binding} (h : bs ≠ []) :
    ∃ b, firstBinding? bs = some b ∧ AtLeastPlace b bs := by
  cases bs with
  | nil => exact absurd rfl h
  | cons b bs => exact ⟨_, rfl, atLeastPlace_foldl bs b⟩

/-- A finding on conformance that names the endpoint, the service and the place of a handler. -/
structure Names (contract : Contract) (h : Binding) (severity : Severity) (x : Mismatch) : Prop where
  contract : x.contract = contract.id
  endpoint : x.endpoint = h.key.endpoint
  service : ∃ said, x.observed = h.describe ++ said
  rule : x.rule = .manifestConformance
  severity : x.severity = severity
  location : x.location = h.location

def handlersOf (contract : Contract) (bindings : List Binding) : List Binding :=
  handlers (bindings.filter (·.key.contract == contract.id))

theorem verificationMismatch?_of_unverified {contract : Contract} {v : Verification}
    (hv : contract.verification = some v) {bindings : List Binding} (hbound : handlers bindings ≠ [])
    (hnone : ∀ b ∈ handlers bindings, verifies b = false) :
    ∃ first x, AtLeastPlace first (handlers bindings) ∧
      verificationMismatch? contract bindings = some x ∧ Names contract first .error x ∧
        x.field = v.header := by
  obtain ⟨first, hfirst, hleast⟩ := exists_firstBinding hbound
  have hany : ¬(handlers bindings).any verifies = true := by
    simpa using hnone
  unfold verificationMismatch?
  rw [hv, Option.bind_some, if_neg hany, hfirst]
  exact ⟨first, _, hleast, rfl, ⟨rfl, rfl, ⟨_, rfl⟩, rfl, rfl, rfl⟩, rfl⟩

end Concord.Comparison

namespace Concord.Convention

open Comparison

inductive Part
  | signature
  | timestamp
  | tolerance
  deriving DecidableEq, Repr

namespace Part

/-- A handler leaves out a part that the scheme has. -/
def Missing (v : Verification) (h : Binding) : Part → Prop
  | .signature => ∀ name ∈ h.headersRead, ¬Header.same name v.header
  | .timestamp => ∃ t ∈ v.timestampHeader, ∀ name ∈ h.headersRead, ¬Header.same name t
  | .tolerance => v.toleranceSeconds ≠ none ∧ ∀ e ∈ h.evidence, e.kind ≠ .timestampCheck

/-- What a finding on a part is about, and what it says. -/
def gap (v : Verification) : Part → String × String
  | .signature => (v.header, s!"never reads the signature header {v.header}")
  | .timestamp =>
    let header := v.timestampHeader.getD ""
    (header, s!"never reads the timestamp header {header}")
  | .tolerance => ("tolerance_seconds", "never checks the timestamp against a tolerance window")

end Part

theorem readsHeader_eq_false_iff {h : Binding} {header : String} :
    readsHeader h header = false ↔ ∀ name ∈ h.headersRead, ¬Header.same name header := by
  simp [readsHeader]

theorem mem_gaps_iff {v : Verification} {h : Binding} {g : String × String} :
    g ∈ gaps v h ↔ ∃ part : Part, part.Missing v h ∧ g = part.gap v := by
  have hparts : (∃ part : Part, part.Missing v h ∧ g = part.gap v) ↔
      (Part.signature.Missing v h ∧ g = Part.signature.gap v) ∨
      (Part.timestamp.Missing v h ∧ g = Part.timestamp.gap v) ∨
      (Part.tolerance.Missing v h ∧ g = Part.tolerance.gap v) := by
    constructor
    · rintro ⟨part, h⟩
      cases part <;> simp [h]
    · rintro (h | h | h)
      · exact ⟨_, h⟩
      · exact ⟨_, h⟩
      · exact ⟨_, h⟩
  obtain ⟨method, header, timestamp, tolerance⟩ := v
  rw [hparts, gaps, List.mem_append, List.mem_append, or_assoc]
  simp only [Part.Missing, Part.gap, ← readsHeader_eq_false_iff]
  refine or_congr ?_ (or_congr ?_ ?_)
  · cases readsHeader h header <;> simp
  · cases timestamp with
    | none => simp
    | some t => cases readsHeader h t <;> simp
  · cases tolerance with
    | none => simp
    | some n => simp [and_comm]

/-- The finding on a part that a handler leaves out. -/
structure Reports (contract : Contract) (v : Verification) (h : Binding) (part : Part)
    (x : Mismatch) : Prop extends Names contract h .warning x where
  field : x.field = (part.gap v).1
  observed : x.observed = h.describe ++ " verifies a signature but " ++ (part.gap v).2

theorem mem_verificationGapsOf {contract : Contract} {v : Verification}
    (hv : contract.verification = some v) {bindings : List Binding} {h : Binding}
    (hh : h ∈ handlersOf contract bindings) (hverifies : verifies h = true) {part : Part}
    (hmissing : part.Missing v h) :
    ∃ x ∈ verificationGapsOf bindings contract, Reports contract v h part x := by
  unfold verificationGapsOf
  rw [hv]
  refine ⟨_, List.mem_flatMap.mpr ⟨h, List.mem_filter.mpr ⟨hh, hverifies⟩,
    List.mem_map_of_mem (mem_gaps_iff.mpr ⟨part, hmissing, rfl⟩)⟩, ?_⟩
  exact ⟨⟨rfl, rfl, ⟨_, String.append_assoc⟩, rfl, rfl, rfl⟩, rfl, rfl⟩

theorem reports_of_mem_verificationGapsOf {contract : Contract} {v : Verification}
    (hv : contract.verification = some v) {bindings : List Binding} {x : Mismatch}
    (hx : x ∈ verificationGapsOf bindings contract) :
    ∃ h ∈ handlersOf contract bindings, verifies h = true ∧
      ∃ part : Part, part.Missing v h ∧ Reports contract v h part x := by
  unfold verificationGapsOf at hx
  rw [hv] at hx
  obtain ⟨h, hh, hx⟩ := List.mem_flatMap.mp hx
  obtain ⟨hh, hverifies⟩ := List.mem_filter.mp hh
  obtain ⟨g, hg, rfl⟩ := List.mem_map.mp hx
  obtain ⟨part, hmissing, rfl⟩ := mem_gaps_iff.mp hg
  exact ⟨h, hh, hverifies, part, hmissing, ⟨rfl, rfl, ⟨_, String.append_assoc⟩, rfl, rfl, rfl⟩, rfl, rfl⟩

/-- On the handlers of a contract that asks for verification, one error is reported if none of them
checks a signature, at the least of their places, and no error if one of them does. A handler that checks a
signature has a warning for each part of the scheme it leaves out, and there are no other warnings. -/
theorem handlers_reported {manifest : Manifest} {contract : Contract}
    (hcontract : contract ∈ manifest.contracts) {v : Verification}
    (hv : contract.verification = some v) {bindings : List Binding} {h : Binding}
    (hh : h ∈ handlersOf contract bindings) :
    ((∀ b ∈ handlersOf contract bindings, verifies b = false) →
      ∃ first x, AtLeastPlace first (handlersOf contract bindings) ∧
        verificationMismatch? contract (bindings.filter (·.key.contract == contract.id)) = some x ∧
          Names contract first .error x ∧ x.field = v.header) ∧
    ((∃ b ∈ handlersOf contract bindings, verifies b = true) →
      verificationMismatch? contract (bindings.filter (·.key.contract == contract.id)) = none) ∧
    (verifies h = true → ∀ part : Part, part.Missing v h →
      ∃ x ∈ verificationGaps manifest bindings, Reports contract v h part x) ∧
    ∀ x ∈ verificationGapsOf bindings contract, ∃ b ∈ handlersOf contract bindings,
      verifies b = true ∧ ∃ part : Part, part.Missing v b ∧ Reports contract v b part x := by
  refine ⟨fun hnone => ?_, fun hsome => ?_, fun hverifies part hmissing => ?_, fun x hx => ?_⟩
  · exact verificationMismatch?_of_unverified hv (List.ne_nil_of_mem hh) hnone
  · exact verificationMismatch?_eq_none_iff.mpr fun _ _ => hsome
  · obtain ⟨x, hx, hreports⟩ := mem_verificationGapsOf hv hh hverifies hmissing
    exact ⟨x, List.mem_flatMap.mpr ⟨contract, hcontract, hx⟩, hreports⟩
  · exact reports_of_mem_verificationGapsOf hv hx

def hooks : Contract where
  id := "hooks"
  producer := "pay"
  consumers := ["billing", "shop"]
  protocol := "http"
  direction := .inbound
  verification := some ⟨"hmac", "X-Signature", some "X-Timestamp", some 300⟩
  endpoints := [⟨"POST", "/hook", none, [], []⟩]

def hooksManifest : Manifest where
  services := []
  contracts := [hooks]
  conventions := ⟨none, none, none, none, none, []⟩
  path := "contracts.yml"
  text := ""

def hookHandler (service : String) (line : Nat) (headersRead : List String)
    (evidence : List EvidenceKind) : Binding where
  key := ⟨"hooks", "POST /hook", service, .consumer, .server, false⟩
  request := none
  response := none
  statusCodes := []
  headersRead
  headersWritten := []
  evidence := evidence.map fun kind => ⟨kind, none, .call, default, ""⟩
  location := ⟨"handlers.go", line, 1⟩
  locations := []

def mixedHandlers : List Binding :=
  [hookHandler "billing" 1 [] [],
    hookHandler "shop" 9 ["x-signature", "x-timestamp"] [.signature, .timestampCheck]]

theorem unverified_handler_unreported :
    hookHandler "billing" 1 [] [] ∈ handlersOf hooks mixedHandlers ∧
      verifies (hookHandler "billing" 1 [] []) = false ∧
        verificationMismatch? hooks (mixedHandlers.filter (·.key.contract == hooks.id)) = none ∧
          verificationGaps hooksManifest mixedHandlers = [] := by
  refine ⟨?_, ?_, ?_, ?_⟩
  · exact List.mem_of_mem_head? rfl
  · decide +kernel
  · decide +kernel
  · decide +kernel

def unsignedHandlers : List Binding := [hookHandler "shop" 9 [] [], hookHandler "billing" 1 [] []]

theorem handlers_reported_hooks :
    (∃ first x, AtLeastPlace first (handlersOf hooks unsignedHandlers) ∧
      verificationMismatch? hooks (unsignedHandlers.filter (·.key.contract == hooks.id)) = some x ∧
        Names hooks first .error x ∧ x.field = "X-Signature") ∧
    ∃ v ∈ hooks.verification, ∃ x ∈ verificationGaps hooksManifest
      [hookHandler "shop" 9 ["x-signature"] [.signature]],
        Reports hooks v (hookHandler "shop" 9 ["x-signature"] [.signature]) .timestamp x := by
  have hhooks : hooks ∈ hooksManifest.contracts := List.mem_singleton_self _
  constructor
  · have hmem : hookHandler "shop" 9 [] [] ∈ handlersOf hooks unsignedHandlers :=
      List.mem_of_mem_head? rfl
    exact (handlers_reported hhooks rfl hmem).1 (by decide +kernel)
  · have hmem : hookHandler "shop" 9 ["x-signature"] [.signature] ∈
        handlersOf hooks [hookHandler "shop" 9 ["x-signature"] [.signature]] := List.mem_singleton_self _
    have hmissing : Part.timestamp.Missing ⟨"hmac", "X-Signature", some "X-Timestamp", some 300⟩
        (hookHandler "shop" 9 ["x-signature"] [.signature]) := ⟨_, rfl, by decide +kernel⟩
    exact ⟨_, rfl, (handlers_reported hhooks rfl hmem).2.2.1 (by decide +kernel) _ hmissing⟩

end Concord.Convention
