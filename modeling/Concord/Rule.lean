import Concord.Text.Basic
import Concord.Text.Case

/-! The eight contract rules, each with a fixed identifier, and how severe a violation is. -/
namespace Concord

inductive Severity
  | error
  | warning
  deriving DecidableEq, Repr, Inhabited

def Severity.display : Severity → String
  | .error => "error"
  | .warning => "warning"

inductive Rule
  | requestShape
  | responseShape
  | statusCodeHandling
  | sharedTypeSync
  | jsonTagMatch
  | dualTest
  | strictnessParity
  | manifestConformance
  deriving DecidableEq, Repr, Inhabited

namespace Rule

def all : List Rule :=
  [.requestShape, .responseShape, .statusCodeHandling, .sharedTypeSync, .jsonTagMatch, .dualTest,
    .strictnessParity, .manifestConformance]

def id : Rule → String
  | .requestShape => "CTR-request-shape"
  | .responseShape => "CTR-response-shape"
  | .statusCodeHandling => "CTR-status-code-handling"
  | .sharedTypeSync => "CTR-shared-type-sync"
  | .jsonTagMatch => "CTR-json-tag-match"
  | .dualTest => "CTR-dual-test"
  | .strictnessParity => "CTR-strictness-parity"
  | .manifestConformance => "CTR-manifest-conformance"

def description : Rule → String
  | .requestShape => "Request bodies match the contract's request schema"
  | .responseShape => "Response bodies match the contract's response schema"
  | .statusCodeHandling => "Consumers handle every declared status code"
  | .sharedTypeSync => "Types shared across services stay in sync"
  | .jsonTagMatch => "Serialized field names match the contract"
  | .dualTest => "Both sides of a contract are exercised by tests"
  | .strictnessParity => "Producer and consumer interpret fields equally strictly"
  | .manifestConformance => "Bound code conforms to the manifest's declarations"

def why : Rule → String
  | .requestShape =>
    "A field the server requires but the client never sends fails only at runtime."
  | .responseShape => "Clients silently read zero values for fields the server stopped sending."
  | .statusCodeHandling => "An unhandled status code turns a documented failure into a crash."
  | .sharedTypeSync => "Copies of one type drift apart one field at a time."
  | .jsonTagMatch => "A renamed tag compiles on both sides and breaks on the wire."
  | .dualTest => "A contract tested from one side only can drift on the other."
  | .strictnessParity =>
    "Different unit, casing or range interpretations cause latent production breaks."
  | .manifestConformance => "Code that diverges from the manifest makes the manifest a lie."

def ofId? (raw : String) : Option Rule :=
  all.find? fun r => Text.asciiSame r.id.toList (Text.trim raw.toList)

def unknownMessage (raw : String) : String := s!"unknown rule id '{raw}'"

def index (r : Rule) : Nat := all.idxOf r

end Rule

end Concord
