import Concord.Text.Basic
import Concord.Text.Case

/-! # Casings of enum values -/
namespace Concord

inductive Casing
  | snake
  | screamingSnake
  | camel
  | pascal
  | kebab
  | lower
  | upper
  deriving DecidableEq, Repr, Inhabited

namespace Casing

def ofName? (raw : String) : Option Casing :=
  let key := (Text.asciiLower (Text.trim raw.toList)).map fun c => if c == '-' || c == ' ' then '_' else c
  match String.ofList key with
  | "snake" | "snake_case" => some .snake
  | "screaming_snake" | "screaming_snake_case" | "upper_snake" | "upper_snake_case" | "constant"
  | "constant_case" => some .screamingSnake
  | "camel" | "camelcase" | "camel_case" | "lower_camel" | "lower_camel_case" => some .camel
  | "pascal" | "pascalcase" | "pascal_case" | "upper_camel" | "upper_camel_case" => some .pascal
  | "kebab" | "kebab_case" => some .kebab
  | "lower" | "lowercase" | "lower_case" => some .lower
  | "upper" | "uppercase" | "upper_case" => some .upper
  | _ => none

def display : Casing → String
  | .snake => "snake_case"
  | .screamingSnake => "SCREAMING_SNAKE_CASE"
  | .camel => "camelCase"
  | .pascal => "PascalCase"
  | .kebab => "kebab-case"
  | .lower => "lowercase"
  | .upper => "UPPERCASE"

def lowerWord (c : Char) : Bool := Text.isAsciiLower c || Text.isAsciiDigit c

def upperWord (c : Char) : Bool := Text.isAsciiUpper c || Text.isAsciiDigit c

def separated (sep : Char) (word : Char → Bool) (t : List Char) : Bool :=
  !t.isEmpty && (Text.split sep t).all fun w => !w.isEmpty && w.all word

def joined (first : Char → Bool) (t : List Char) : Bool :=
  t.head?.any first && t.all Text.isAsciiAlphanumeric

def holds (casing : Casing) (value : String) : Bool :=
  let t := value.toList
  match casing with
  | .snake => separated '_' lowerWord t
  | .screamingSnake => separated '_' upperWord t
  | .kebab => separated '-' lowerWord t
  | .camel => joined Text.isAsciiLower t
  | .pascal => joined Text.isAsciiUpper t
  | .lower => !t.isEmpty && t == Text.lower t
  | .upper => !t.isEmpty && t == Text.upper t

/-- The casings a service is taken to follow without declaring it, in the order in which ties are
broken. -/
def inferred : List Casing := [.snake, .screamingSnake, .camel, .pascal, .kebab]

def hits (values : List String) (casing : Casing) : Nat := values.countP casing.holds

def best (values : List String) : Casing :=
  inferred.foldl (fun b c => if hits values b < hits values c then c else b) .snake

def dominant? (values : List String) : Option Casing :=
  let b := best values
  if values.length - hits values b < hits values b then some b else none

end Casing

end Concord
