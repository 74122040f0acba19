import Concord.Boundary.Note
import Concord.Evidence.Header
import Concord.Evidence.Scan
import Concord.Evidence.Status

/-! What does not depend on the language: the routine around an observation, evidence, header names,
status codes and hints. -/
namespace Concord.Observation

def scopeOf (o : Observation) (offset : Nat) : EvidenceScope :=
  if o.span.contains offset then .call
  else if o.routine.any (·.contains offset) then .unit
  else .file

/-- The evidence that a hit is for an observation. A comparison with a text counts only near the
boundary. -/
def evidenceOf (s : Source) (o : Observation) (h : Hit) : Option Evidence :=
  let scope := o.scopeOf h.offset
  match h.kind, scope with
  | .enumLiteral _, .file => none
  | _, _ => some ⟨h.kind, h.field, scope, s.place h.offset, h.text⟩

def region (o : Observation) : Span :=
  match o.routine with
  | some r => ⟨min r.start o.span.start, max r.stop o.span.stop⟩
  | none => o.span

/-- Adds the routine, the evidence, the headers and the status codes around an observation. -/
def complete (s : Source) (routines : List Routine) (hits : List Hit) (testFile : Bool)
    (o : Observation) : Observation :=
  let enclosing := Routine.at? routines o.span.start
  let o : Observation := { o with routine := o.routine.or (enclosing.map (·.span)) }
  let handlerTest := (o.routine.bind fun r => routines.find? (·.span == r)).any (·.isTest)
  let o : Observation := { o with
    inTest := testFile || handlerTest || enclosing.any (·.isTest)
    evidence := o.evidence ++ hits.filterMap (o.evidenceOf s) }
  let r := o.region
  let headers := Header.names s r.start r.stop
  match o.side with
  | .client =>
    { o with
      headersWritten := o.headersWritten ++ headers
      statusCodes := if o.statusCodes.isEmpty then Status.branches s r.start r.stop else o.statusCodes }
  | .server =>
    { o with
      headersRead := o.headersRead ++ headers
      statusCodes := if o.statusCodes.isEmpty then Status.writes s r.start r.stop else o.statusCodes }

/-- The first observation at or below a line that is not taken. -/
def freeBelow? (os : List Observation) (taken : List (Option Nat)) (line : Nat) : Option Nat :=
  (List.range os.length).find? fun i =>
    !taken.contains (some i) && os[i]?.any (line ≤ ·.location.line)

def hintTargets (os : List Observation) (hs : List (Nat × Hint)) : List (Option Nat) :=
  hs.foldl (fun ts h => ts ++ [freeBelow? os ts h.1]) []

def giveHints (hs : List (Nat × Hint)) (os : List Observation) : List Observation :=
  let given := (hintTargets os hs).zip hs
  os.mapIdx fun i o =>
    { o with hint := ((given.find? (·.1 == some i)).map (·.2.2)).or o.hint }

def completed (s : Source) (routines : List Routine) (testFile : Bool) (os : List Observation) :
    List Observation :=
  let sorted := os.mergeSort fun a b =>
    a.span.start < b.span.start || (a.span.start == b.span.start && a.span.stop ≤ b.span.stop)
  sorted.map (complete s routines (Evidence.scan s) testFile)

def completeAll (s : Source) (routines : List Routine) (testFile : Bool) (os : List Observation) :
    List Observation :=
  giveHints (Note.hints s) (completed s routines testFile os)

end Concord.Observation
