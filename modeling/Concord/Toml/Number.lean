import Concord.Toml.Quoted
import Concord.Toml.Value

/-! Digits may be divided by single underscores. A number that is no integer of 64 bits is refused,
and so is a decimal above all finite ones. -/
namespace Concord.Toml

open Text

def moreDigits (isDigit : Char → Bool) : List Char → List Char × List Char
  | '_' :: d :: t =>
    if isDigit d then
      let (ds, rest) := moreDigits isDigit t
      (d :: ds, rest)
    else ([], '_' :: d :: t)
  | d :: t =>
    if isDigit d then
      let (ds, rest) := moreDigits isDigit t
      (d :: ds, rest)
    else ([], d :: t)
  | [] => ([], [])

def digits? (isDigit : Char → Bool) : List Char → Option (List Char × List Char)
  | d :: t =>
    if isDigit d then
      let (ds, rest) := moreDigits isDigit t
      some (d :: ds, rest)
    else none
  | [] => none

/-- The digits of a whole number, which start with a zero only if that is all, and what follows. -/
def wholeDigits? : List Char → Option (List Char × List Char)
  | '0' :: t => some (['0'], t)
  | t => digits? isAsciiDigit t

def sign : List Char → Option Char × List Char
  | '+' :: t => (some '+', t)
  | '-' :: t => (some '-', t)
  | t => (none, t)

/-- An integer of 64 bits in a base other than ten, from after the mark of the base on. -/
def based? (base : Nat) (t : List Char) : Option (Value × List Char) :=
  let isDigit := fun c => (hexValue? c).any (· < base)
  (digits? isDigit t).bind fun (ds, rest) =>
    let n := ds.foldl (fun n d => base * n + (hexValue? d).getD 0) 0
    if n < Nat.pow 2 63 then some (.integer n, rest) else none

/-- The mark of an exponent with the sign and the digits after it, or nothing; and what follows.
None if digits are missing. -/
def exponentPart? : List Char → Option (List Char × List Char)
  | c :: t =>
    if c == 'e' || c == 'E' then
      let (mark, t) := sign t
      (digits? isAsciiDigit t).map fun (ds, rest) => ('e' :: mark.toList ++ ds, rest)
    else some ([], c :: t)
  | [] => some ([], [])

/-- The point with the digits after it, or nothing; and what follows. None if digits are missing. -/
def pointPart? : List Char → Option (List Char × List Char)
  | '.' :: t => (digits? isAsciiDigit t).map fun (ds, rest) => ('.' :: ds, rest)
  | t => some ([], t)

def decimal? (t : List Char) : Option (Value × List Char) := do
  let (mark, t) := sign t
  match t with
  | 'i' :: 'n' :: 'f' :: rest => some (.float (.inf (mark == some '-')), rest)
  | 'n' :: 'a' :: 'n' :: rest => some (.float .nan, rest)
  | _ =>
    let (whole, rest) ← wholeDigits? t
    let (point, rest) ← pointPart? rest
    let (exponent, rest) ← exponentPart? rest
    if point.isEmpty && exponent.isEmpty then
      let n := Binary64.digitsValue whole
      if mark == some '-' then
        if n ≤ Nat.pow 2 63 then some (.integer (-n), rest) else none
      else if n < Nat.pow 2 63 then some (.integer n, rest) else none
    else
      let x ← Binary64.ofText? (mark.toList ++ whole ++ point ++ exponent)
      if x = .inf false then none else some (.float x, rest)

def number? : List Char → Option (Value × List Char)
  | '0' :: 'x' :: t => based? 16 t
  | '0' :: 'o' :: t => based? 8 t
  | '0' :: 'b' :: t => based? 2 t
  | t => decimal? t

end Concord.Toml
