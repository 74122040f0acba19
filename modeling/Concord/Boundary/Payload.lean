import Concord.Boundary.Basic
import Concord.Literal.Object

/-! # Payloads where they are used -/
namespace Concord

namespace Source

open Text

def matchesOf (s : Source) (p : Pattern) : List Pattern.Match := p.findAll s.chars

def originAt (s : Source) (offset : Nat) : Origin := ⟨s.place offset, s.excerpt offset⟩

def typedAt (s : Source) (ty : TypeExpr) (offset : Nat) : PayloadSource := .typed ty (s.originAt offset)

def writtenAt (s : Source) (opening : Nat) : PayloadSource := .literal (Literal.object s opening "")

def keyedAt (s : Source) (offset : Nat) (keys : List String) : PayloadSource :=
  let origin := s.originAt offset
  .literal { Shape.plain "" .object origin with
    confidence := .inferred
    children := keys.map (Shape.obscure · origin) }

/-- The payload of which only the keys that code reads are known; none if it reads none. -/
def keysAt (s : Source) (offset : Nat) (keys : List String) : Option PayloadSource :=
  if keys.isEmpty then none else some (s.keyedAt offset keys.eraseDups)

def contentStart (s : Source) (span : Span) : Nat :=
  span.start + byteSize ((s.spanText span).takeWhile isBlank)

def wholeSpan (s : Source) : Span := ⟨0, s.code.size⟩

def scopeOf (s : Source) (r : Routine) : Span := ⟨s.lineStart (s.lineOf r.span.start), r.span.stop⟩

def scopeAt (s : Source) (rs : List Routine) (offset : Nat) : Span :=
  ((Routine.at? rs offset).map s.scopeOf).getD s.wholeSpan

def routineAt (s : Source) (rs : List Routine) (offset : Nat) : Span :=
  ((Routine.at? rs offset).map (·.span)).getD s.wholeSpan

end Source

/-- A payload as it is found, before the place it is told by is known. -/
inductive FoundPayload
  | typed (type : TypeExpr) (offset : Nat)
  | keyed (keys : List String) (offset : Nat)
  | written (opening : Nat)
  deriving Repr

namespace FoundPayload

def offset : FoundPayload → Nat
  | .typed _ o => o
  | .keyed _ o => o
  | .written o => o

def located (s : Source) (p : FoundPayload) : Except BadCut PayloadSource := do
  let _ ← s.location p.offset
  return match p with
    | .typed ty o => s.typedAt ty o
    | .keyed keys o => s.keyedAt o keys
    | .written o => s.writtenAt o

end FoundPayload

/-- A boundary as it is found, before the places it is told by are known. -/
structure FoundBoundary where
  side : Side
  method : Option String
  path : Option String
  offset : Nat
  span : Span
  routine : Option Span
  request : Option FoundPayload
  response : Option FoundPayload
  deriving Repr

namespace FoundBoundary

def offsets (f : FoundBoundary) : List Nat :=
  f.offset :: (f.request.toList ++ f.response.toList).map (·.offset)

def located (s : Source) (f : FoundBoundary) : Except BadCut Observation := do
  let location ← s.location f.offset
  let request ← f.request.mapM (·.located s)
  let response ← f.response.mapM (·.located s)
  return { Observation.at f.side location f.span with
    method := f.method
    path := f.path
    routine := f.routine
    request
    response }

end FoundBoundary

end Concord
