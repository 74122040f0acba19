import Concord.Violation

/-! # Reports -/
namespace Concord

structure Report where
  violations : List Violation
  diagnostics : List Diagnostic
  deriving DecidableEq, Repr, Inhabited

namespace Report

def hasViolations (r : Report) : Bool := !r.violations.isEmpty

def sortedDiagnostics (ds : List Diagnostic) : List Diagnostic :=
  Text.dropRepeats (ds.mergeSort fun a b => a.compare b != .gt)

end Report

end Concord
