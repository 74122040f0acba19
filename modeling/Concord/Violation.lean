import Concord.Configuration
import Concord.Finding.Message
import Concord.Text.Sorted

/-! Findings after the policy on rules, in the order of reports. -/
namespace Concord

structure Violation where
  rule : Rule
  severity : Severity
  message : String
  location : Location
  deriving DecidableEq, Repr, Inhabited

def Violation.compare (a b : Violation) : Ordering :=
  (a.location.compare b.location).then
    ((Ord.compare a.rule.id b.rule.id).then (Ord.compare a.message b.message))

def Mismatch.violation? (c : Configuration) (m : Mismatch) : Option Violation :=
  (c.severity? m.rule m.severity).map fun severity => ⟨m.rule, severity, m.message, m.location⟩

/-- The violations of a list of findings, those of one rule only if one is given: in order, without
repetitions next to one another. -/
def violationsOf (c : Configuration) (only : Option Rule) (ms : List Mismatch) : List Violation :=
  let selected := ms.filter fun m => only.all (· = m.rule)
  Text.dropRepeats
    ((selected.filterMap (·.violation? c)).mergeSort fun a b => a.compare b != .gt)

end Concord
