import Concord.Number.Decimal

/-! # Whole numbers as text -/
namespace Concord

/-- Reads digits, after an optional plus, as a number of at most `limit`. -/
def readNat? (limit : Nat) (t : List Char) : Option Nat :=
  let ds := match t with
    | '+' :: ds => ds
    | ds => ds
  if ds.isEmpty || !ds.all Text.isAsciiDigit then none
  else
    let n := Binary64.digitsValue ds
    if n ≤ limit then some n else none

def isInteger64 (t : List Char) : Bool :=
  match t with
  | '-' :: '+' :: _ => false
  | '-' :: ds => (readNat? (Nat.pow 2 63) ds).isSome
  | ds => (readNat? (Nat.pow 2 63 - 1) ds).isSome

end Concord
