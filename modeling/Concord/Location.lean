/-! # Places in files -/
namespace Concord

/-- A place in a file; lines and columns count from one. -/
structure Location where
  file : String
  line : Nat
  column : Nat
  deriving DecidableEq, Repr, Inhabited

namespace Location

def compare (a b : Location) : Ordering :=
  (Ord.compare a.file b.file).then ((Ord.compare a.line b.line).then (Ord.compare a.column b.column))

def le (a b : Location) : Bool := compare a b != .gt

def display (l : Location) : String := s!"{l.file}:{l.line}:{l.column}"

end Location

/-- A range of byte offsets, from `start` up to but without `stop`. -/
structure Span where
  start : Nat
  stop : Nat
  deriving DecidableEq, Repr, Inhabited

namespace Span

def contains (s : Span) (offset : Nat) : Bool := s.start ≤ offset && offset < s.stop

end Span

inductive BadCut
  /-- A range whose end comes before its start: what a declaration seems to span when it is read off
  text that is no declaration. -/
  | inverted (start stop : Nat)
  /-- An offset inside a character. -/
  | inside (offset : Nat)
  deriving DecidableEq, Repr

end Concord
