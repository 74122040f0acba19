import Concord.Report.Basic
import Concord.Report.Json

/-! # Reports as JSON documents -/
namespace Concord

def Location.toJson (l : Location) : Json :=
  .obj [("file", .str l.file), ("line", .int l.line), ("column", .int l.column)]

def Violation.toJson (v : Violation) : Json := .obj [
  ("RuleID", .str v.rule.id),
  ("Severity", .str v.severity.display),
  ("Message", .str v.message),
  ("FilePath", .str v.location.file),
  ("StartLine", .int v.location.line),
  ("StartColumn", .int v.location.column)]

def Diagnostic.toJson (d : Diagnostic) : Json := .obj [
  ("kind", .str d.kind.key),
  ("location", d.location.toJson),
  ("message", .str d.message)]

def Report.toJson (r : Report) : Json := .obj [
  ("violations", .arr (r.violations.map (·.toJson))),
  ("diagnostics", .arr (r.diagnostics.map (·.toJson)))]

end Concord
