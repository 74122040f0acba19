import Concord.Number.Decimal

/-! # Values of a TOML document -/
namespace Concord.Toml

inductive Value
  | string (text : String)
  | integer (n : Int)
  | float (x : Binary64)
  | boolean (b : Bool)
  /-- A date, a time or both, as it is written out in full. -/
  | moment (text : String)
  | array (items : List Value)
  | table (entries : List (String × Value))
  deriving Repr, Inhabited

def momentKey : String := "$__toml_private_datetime"

namespace Value

/-- The entries of a table. A date counts as a table that holds its text. -/
def entries? : Value → Option (List (String × Value))
  | .table entries => some entries
  | .moment text => some [(momentKey, .string text)]
  | _ => none

def string? : Value → Option String
  | .string text => some text
  | _ => none

def count? : Value → Option Nat
  | .integer n => if n < 0 then none else some n.toNat
  | _ => none

def strings? : Value → Option (List String)
  | .array items => items.mapM string?
  | _ => none

def isEmpty : Value → Bool
  | .array items => items.isEmpty
  | .table entries => entries.isEmpty
  | _ => false

end Value

end Concord.Toml
