import Concord.Text.Table.Classes
import Concord.Text.Table.Mappings

/-! Every class is decided on ASCII directly and by the table of its Unicode property beyond that.
-/
namespace Concord.Text

/-- Membership in stretches that lie outside and inside in turn. -/
def inStretches : List Nat → Nat → Bool
  | outside :: inside :: rest, n =>
    if n < outside then false
    else if n < outside + inside then true
    else inStretches rest (n - (outside + inside))
  | _, _ => false

def inTable (table : List Nat) (c : Char) : Bool := inStretches table (c.toNat - 0x80)

def inRun (r : Nat × Nat × Nat × Int) (n : Nat) : Bool :=
  r.1 ≤ n && n ≤ r.2.1 && (n - r.1) % r.2.2.1 == 0

def lowerCodePoint (n : Nat) : List Nat :=
  match Table.lowercaseSpecial.lookup n, Table.lowercaseRuns.find? (inRun · n) with
  | some image, _ => image
  | none, some r => [((n : Int) + r.2.2.2).toNat]
  | none, none => [n]

/-- The upper case of a code point beyond ASCII: for most it is what has it as its lower case. -/
def upperCodePoint (n : Nat) : List Nat :=
  let before (r : Nat × Nat × Nat × Int) : Nat := ((n : Int) - r.2.2.2).toNat
  match Table.uppercaseSpecial.lookup n, Table.lowercaseRuns.find? fun r => inRun r (before r) with
  | some image, _ => image
  | none, some r => [before r]
  | none, none => [n]

def isAsciiDigit (c : Char) : Bool := '0' ≤ c && c ≤ '9'

def isAsciiLower (c : Char) : Bool := 'a' ≤ c && c ≤ 'z'

def isAsciiUpper (c : Char) : Bool := 'A' ≤ c && c ≤ 'Z'

def isAsciiLetter (c : Char) : Bool := isAsciiLower c || isAsciiUpper c

def isAsciiAlphanumeric (c : Char) : Bool := isAsciiLetter c || isAsciiDigit c

/-- The characters with the White_Space property. -/
def isBlank (c : Char) : Bool :=
  let n := c.toNat
  (9 ≤ n && n ≤ 13) || n == 0x20 || n == 0x85 || n == 0xA0 || n == 0x1680 ||
    (0x2000 ≤ n && n ≤ 0x200A) || n == 0x2028 || n == 0x2029 || n == 0x202F || n == 0x205F ||
    n == 0x3000

def isWord (c : Char) : Bool :=
  if c.toNat < 0x80 then isAsciiAlphanumeric c || c == '_'
  else
    inTable Table.alphabetic c && !inTable Table.recentAlphabetic c || inTable Table.decimalDigit c ||
      inTable Table.wordMark c

def isDigit (c : Char) : Bool :=
  if c.toNat < 0x80 then isAsciiDigit c else inTable Table.decimalDigit c

def isAlphanumeric (c : Char) : Bool :=
  if c.toNat < 0x80 then isAsciiAlphanumeric c
  else inTable Table.alphabetic c || inTable Table.numeric c

def isUpper (c : Char) : Bool :=
  if c.toNat < 0x80 then isAsciiUpper c
  else
    lowerCodePoint c.toNat != [c.toNat] && !inTable Table.titlecase c ||
      inTable Table.soleUppercase c

def isLower (c : Char) : Bool :=
  if c.toNat < 0x80 then isAsciiLower c
  else
    upperCodePoint c.toNat != [c.toNat] && !inTable Table.titlecase c ||
      inTable Table.soleLowercase c

end Concord.Text
