import Concord.Number.Decimal

/-! # Value ranges -/
namespace Concord

/-- Inclusive bounds on a value; either side may be open. -/
structure Bounds (α : Type) where
  min : Option α
  max : Option α
  deriving DecidableEq, Repr, Inhabited

abbrev Range := Bounds Binary64

namespace Bounds

variable {α : Type} [LT α] [DecidableLT α]

def minTighter (a b : Option α) : Bool :=
  match a, b with
  | some a, some b => b < a
  | some _, none => true
  | none, _ => false

def maxTighter (a b : Option α) : Bool :=
  match a, b with
  | some a, some b => a < b
  | some _, none => true
  | none, _ => false

/-- Whether `a` refuses a value that `b` accepts, bound by bound. -/
def narrowerThan (a b : Bounds α) : Bool := minTighter a.min b.min || maxTighter a.max b.max

def broaderThan (a b : Bounds α) : Bool := b.narrowerThan a

end Bounds

def Range.unbounded : Range := ⟨none, none⟩

def Range.proper? (r : Range) : Option Range := if r.min.isSome || r.max.isSome then some r else none

def Range.display (r : Range) : String :=
  let bound := fun (b : Option Binary64) => (b.map Binary64.toString).getD "*"
  s!"[{bound r.min}, {bound r.max}]"

end Concord
