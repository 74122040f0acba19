import Concord.Source.Token

/-! Nesting of brackets outside literals and comments. -/
namespace Concord.Source

abbrev Pending := UInt8 × Nat

/-- A closing bracket that does not fit: the bracket, its offset and the innermost open one. -/
structure Imbalance where
  closer : UInt8
  offset : Nat
  pending : Option Pending
  deriving DecidableEq, Repr

/-- What the byte at `offset` leaves open of the brackets that stand open, innermost first. -/
def nestByte (b : UInt8) (offset : Nat) (stack : List Pending) : Except Imbalance (List Pending) :=
  if Byte.isOpener b then .ok ((b, offset) :: stack)
  else if Byte.isCloser b then
    match stack with
    | (o, at_) :: stack =>
      if Byte.closerOf? o == some b then .ok stack else .error ⟨b, offset, some (o, at_)⟩
    | [] => .error ⟨b, offset, none⟩
  else .ok stack

/-- Carries the brackets that stand open through tokens from `offset` on. Those in comments and
literals do not count. -/
def nestTokens : List Token → (offset : Nat) → List Pending → Except Imbalance (List Pending)
  | [], _, stack => .ok stack
  | .plain b :: ts, offset, stack =>
    match nestByte b offset stack with
    | .error i => .error i
    | .ok stack => nestTokens ts (offset + 1) stack
  | t :: ts, offset, stack => nestTokens ts (offset + t.size) stack

/-- The offset of the first byte at which the depth of one kind of bracket returns to zero. -/
def closingFrom? (opener closer : UInt8) : List UInt8 → (offset depth : Nat) → Option Nat
  | [], _, _ => none
  | b :: rest, offset, depth =>
    if b == opener then closingFrom? opener closer rest (offset + 1) (depth + 1)
    else if b == closer then
      if depth ≤ 1 then some offset else closingFrom? opener closer rest (offset + 1) (depth - 1)
    else closingFrom? opener closer rest (offset + 1) depth

def topLevelCuts (sep : UInt8) : List UInt8 → (offset : Nat) → (depth : Int) → List Nat
  | [], _, _ => []
  | b :: rest, offset, depth =>
    if Byte.isOpener b then topLevelCuts sep rest (offset + 1) (depth + 1)
    else if Byte.isCloser b then topLevelCuts sep rest (offset + 1) (depth - 1)
    else if b == sep && depth == 0 then offset :: topLevelCuts sep rest (offset + 1) depth
    else topLevelCuts sep rest (offset + 1) depth

end Concord.Source
