import Concord.Location
import Concord.Rule

/-! What the checks of a contract say, before the policy on rules is applied. -/
namespace Concord

inductive MismatchKind
  | type
  | unit
  | case
  | missing
  | extra
  | strictness
  | enum
  | format
  | drift
  | tag
  | status
  | dualTest
  | conformance
  deriving DecidableEq, Repr, Inhabited

namespace MismatchKind

def all : List MismatchKind :=
  [.type, .unit, .case, .missing, .extra, .strictness, .enum, .format, .drift, .tag, .status, .dualTest,
    .conformance]

def key : MismatchKind → String
  | .type => "type"
  | .unit => "unit"
  | .case => "case"
  | .missing => "missing"
  | .extra => "extra"
  | .strictness => "strictness"
  | .enum => "enum"
  | .format => "format"
  | .drift => "drift"
  | .tag => "tag"
  | .status => "status"
  | .dualTest => "dual_test"
  | .conformance => "conformance"

def ofKey? (key : String) : Option MismatchKind := all.find? (·.key == key)

end MismatchKind

structure Mismatch where
  contract : String
  endpoint : String
  /-- The path of the field, or the code or the header that it is about. -/
  field : String
  kind : MismatchKind
  expected : String
  observed : String
  rule : Rule
  severity : Severity
  location : Location
  deriving DecidableEq, Repr, Inhabited

inductive DiagnosticKind
  | sourceParse
  | ambiguousBinding
  | unreadableFile
  deriving DecidableEq, Repr, Inhabited

namespace DiagnosticKind

def key : DiagnosticKind → String
  | .sourceParse => "source_parse"
  | .ambiguousBinding => "ambiguous_binding"
  | .unreadableFile => "unreadable_file"

def rank : DiagnosticKind → Nat
  | .sourceParse => 0
  | .ambiguousBinding => 1
  | .unreadableFile => 2

end DiagnosticKind

structure Diagnostic where
  kind : DiagnosticKind
  location : Location
  message : String
  deriving DecidableEq, Repr, Inhabited

def Diagnostic.compare (a b : Diagnostic) : Ordering :=
  (Ord.compare a.kind.rank b.kind.rank).then
    ((a.location.compare b.location).then (Ord.compare a.message b.message))

end Concord
