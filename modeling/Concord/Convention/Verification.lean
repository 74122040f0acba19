import Concord.Comparison.Coverage
import Concord.Evidence.Header

/-! A handler that checks a signature follows the whole scheme that the contract declares. -/
namespace Concord.Convention

open Comparison

def readsHeader (b : Binding) (header : String) : Bool := b.headersRead.any (Header.same · header)

/-- The parts of a scheme that a handler leaves out: what each is about, and what is said. -/
def gaps (v : Verification) (b : Binding) : List (String × String) :=
  let header :=
    if readsHeader b v.header then []
    else [(v.header, s!"never reads the signature header {v.header}")]
  let timestamp := match v.timestampHeader with
    | some t => if readsHeader b t then [] else [(t, s!"never reads the timestamp header {t}")]
    | none => []
  let tolerance :=
    if v.toleranceSeconds.isSome && !b.evidence.any (·.kind = .timestampCheck) then
      [("tolerance_seconds", "never checks the timestamp against a tolerance window")]
    else []
  header ++ timestamp ++ tolerance

def verificationGapsOf (bindings : List Binding) (c : Contract) : List Mismatch :=
  match c.verification with
  | none => []
  | some v =>
    ((handlers (bindings.filter (·.key.contract == c.id))).filter verifies).flatMap fun b =>
      (gaps v b).map fun (field, gap) => {
        contract := c.id
        endpoint := b.key.endpoint
        field
        kind := .conformance
        expected := s!"{v.method} verification"
        observed := s!"{b.describe} verifies a signature but {gap}"
        rule := .manifestConformance
        severity := .warning
        location := b.location }

def verificationGaps (m : Manifest) (bindings : List Binding) : List Mismatch :=
  m.contracts.flatMap (verificationGapsOf bindings)

end Concord.Convention
