import Concord.Quantity.Unit

/-! Words of an identifier, the form in which two spellings of one name agree, and the unit a name
ends with. -/
namespace Concord.Identifier

def startsWord (before : Option Char) (c : Char) (after : Option Char) : Bool :=
  Text.isUpper c && before.any fun b =>
    Text.isLower b || Text.isAsciiDigit b || (after.any Text.isLower && Text.isUpper b)

def wordsFrom (before : Option Char) (word : List Char) : List Char → List (List Char)
  | [] => if word.isEmpty then [] else [word]
  | c :: rest =>
    if c == '_' || c == '-' then
      if word.isEmpty then wordsFrom (some c) [] rest else word :: wordsFrom (some c) [] rest
    else if startsWord before c rest.head? && !word.isEmpty then
      word :: wordsFrom (some c) (Text.lowerChar c) rest
    else wordsFrom (some c) (word ++ Text.lowerChar c) rest

/-- The words of an identifier in lower case: separators and changes of case divide it. -/
def words (name : String) : List String := (wordsFrom none [] name.toList).map String.ofList

/-- The last words that name a unit. Names of one letter are too ambiguous. -/
def unitWords : List String :=
  ["cents", "dollars", "grams", "kg", "kgs", "kilograms", "mg", "milligrams", "lbs", "pounds", "oz",
    "ounces", "mm", "cm", "meters", "inches"]

def unit? (name : String) : Option String :=
  let ws := words name
  if ws.length < 2 then none
  else ws.getLast?.bind fun last =>
    if unitWords.contains last then some (Quantity.canonicalUnit last) else none

def fold (name : String) : List Char := (name.toList.filter Text.isAlphanumeric).flatMap Text.lowerChar

/-- Whether a name as found refers to one of several names: they agree in their folded forms, or one
of at least four bytes starts the other. -/
def mentions (found : Option String) (names : List String) : Bool :=
  match found.map fold with
  | none => false
  | some field => names.any fun n =>
    let name := fold n
    name == field || (4 ≤ Text.byteSize name && name.isPrefixOf field) ||
      (4 ≤ Text.byteSize field && field.isPrefixOf name)

end Concord.Identifier
