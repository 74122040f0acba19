import Concord.Text.Class

/-! Full case mapping: one character may become several, and a capital sigma at the end of a word
becomes a final sigma. The ASCII maps change ASCII letters only. -/
namespace Concord.Text

def asciiLowerChar (c : Char) : Char :=
  if isAsciiUpper c then Char.ofNat (c.toNat + 32) else c

def asciiUpperChar (c : Char) : Char :=
  if isAsciiLower c then Char.ofNat (c.toNat - 32) else c

def lowerChar (c : Char) : List Char :=
  if c.toNat < 0x80 then [asciiLowerChar c]
  else (lowerCodePoint c.toNat).map Char.ofNat

def upperChar (c : Char) : List Char :=
  if c.toNat < 0x80 then [asciiUpperChar c]
  else (upperCodePoint c.toNat).map Char.ofNat

def isCased (c : Char) : Bool :=
  if c.toNat < 0x80 then isAsciiLetter c else isUpper c || isLower c || inTable Table.titlecase c

def isCaseIgnorable (c : Char) : Bool :=
  if c.toNat < 0x80 then c.toNat == 0x27 || c == '.' || c == ':' || c == '^' || c.toNat == 0x60
  else inTable Table.caseIgnorable c

/-- Whether the first character that is not case-ignorable is a cased one. -/
def casedFirst (t : List Char) : Bool :=
  match t.dropWhile isCaseIgnorable with
  | c :: _ => isCased c
  | [] => false

/-- Lower case of `rest`, where `before` is what precedes it, last character first. -/
def lowerFrom (before : List Char) : List Char → List Char
  | [] => []
  | c :: rest =>
    let image :=
      if c == 'Σ' then [if casedFirst before && !casedFirst rest then 'ς' else 'σ']
      else lowerChar c
    image ++ lowerFrom (c :: before) rest

def lower (t : List Char) : List Char := lowerFrom [] t

def upper (t : List Char) : List Char := t.flatMap upperChar

def asciiLower (t : List Char) : List Char := t.map asciiLowerChar

def asciiUpper (t : List Char) : List Char := t.map asciiUpperChar

def asciiSame (a b : List Char) : Bool := asciiLower a == asciiLower b

end Concord.Text
