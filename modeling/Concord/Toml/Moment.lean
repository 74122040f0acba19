import Concord.Toml.Value
import Concord.Text.Basic

/-! # Dates and times -/
namespace Concord.Toml

open Text

/-- A number of exactly `n` digits in a range: its digits, its value, and what follows. -/
def fixed? (n low high : Nat) (t : List Char) : Option (List Char × Nat × List Char) :=
  let ds := t.take n
  let v := Binary64.digitsValue ds
  if ds.length = n && ds.all isAsciiDigit && low ≤ v && v ≤ high then some (ds, v, t.drop n) else none

def isLeapYear (year : Nat) : Bool := year % 4 = 0 && (year % 100 != 0 || year % 400 = 0)

def daysIn (year month : Nat) : Nat :=
  if month = 2 then if isLeapYear year then 29 else 28
  else if month = 4 || month = 6 || month = 9 || month = 11 then 30
  else 31

def date? (t : List Char) : Option (List Char × List Char) := do
  let (y, year, t) ← fixed? 4 0 9999 t
  let t ← afterLead? ['-'] t
  let (m, month, t) ← fixed? 2 1 12 t
  let t ← afterLead? ['-'] t
  let (d, _, t) ← fixed? 2 1 (daysIn year month) t
  some (y ++ '-' :: m ++ '-' :: d, t)

/-- The fraction of a second, to the billionth and without zeros at its end; and what follows. A
point without digits is not read. -/
def fraction (t : List Char) : List Char × List Char :=
  match t with
  | '.' :: r =>
    let ds := r.takeWhile isAsciiDigit
    if ds.isEmpty then ([], t)
    else
      let kept := dropEndWhile (· == '0') (ds.take 9)
      (if kept.isEmpty then [] else '.' :: kept, r.dropWhile isAsciiDigit)
  | _ => ([], t)

def time? (t : List Char) : Option (List Char × List Char) := do
  let (h, _, t) ← fixed? 2 0 23 t
  let t ← afterLead? [':'] t
  let (m, _, t) ← fixed? 2 0 59 t
  let t ← afterLead? [':'] t
  let (s, _, t) ← fixed? 2 0 60 t
  let (f, t) := fraction t
  some (h ++ ':' :: m ++ ':' :: s ++ f, t)

def zone (t : List Char) : List Char × List Char :=
  match t with
  | 'Z' :: r => (['Z'], r)
  | 'z' :: r => (['Z'], r)
  | c :: r =>
    if c == '+' || c == '-' then
      let offset := do
        let (h, hours, r) ← fixed? 2 0 23 r
        let r ← afterLead? [':'] r
        let (m, minutes, r) ← fixed? 2 0 59 r
        some ((if hours + minutes = 0 then '+' else c) :: h ++ ':' :: m, r)
      offset.getD ([], t)
    else ([], t)
  | [] => ([], [])

def moment? (t : List Char) : Option (Value × List Char) :=
  match date? t with
  | some (d, rest) =>
    let both := match rest with
      | c :: r => if c == 'T' || c == 't' || c == ' ' then time? r else none
      | [] => none
    match both with
    | some (clock, rest) =>
      let (offset, rest) := zone rest
      some (.moment (String.ofList (d ++ 'T' :: clock ++ offset)), rest)
    | none => some (.moment (String.ofList d), rest)
  | none => (time? t).map fun (clock, rest) => (.moment (String.ofList clock), rest)

end Concord.Toml
