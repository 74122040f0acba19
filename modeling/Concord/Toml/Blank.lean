import Concord.Text.Basic

/-! # Blanks, comments and ends of lines -/
namespace Concord.Toml

def isSpace (c : Char) : Bool := c == ' ' || c == '\t'

def dropSpace (t : List Char) : List Char := t.dropWhile isSpace

def isPrintable (c : Char) : Bool := c == '\t' || (' ' ≤ c && c ≤ '~') || 128 ≤ c.toNat

def newline? : List Char → Option (List Char)
  | '\n' :: t => some t
  | '\r' :: '\n' :: t => some t
  | _ => none

def dropComment : List Char → List Char
  | '#' :: t => t.dropWhile isPrintable
  | t => t

/-- What follows the rest of a line on which nothing but a comment may stand. -/
def endOfLine? (t : List Char) : Option (List Char) :=
  match dropComment (dropSpace t) with
  | [] => some []
  | t => newline? t

/-- What follows blanks, comments and ends of lines. None if a comment does not end its line or if a
line ends in an unusual way. -/
def dropLines? : (fuel : Nat) → List Char → Option (List Char)
  | 0, _ => none
  | fuel + 1, t =>
    match dropSpace t with
    | '#' :: t => (newline? (t.dropWhile isPrintable)).bind (dropLines? fuel)
    | '\n' :: t => dropLines? fuel t
    | '\r' :: t => (newline? ('\r' :: t)).bind (dropLines? fuel)
    | t => some t

def dropNewlines : (fuel : Nat) → List Char → List Char
  | 0, t => t
  | fuel + 1, t =>
    let t := dropSpace t
    match newline? t with
    | some t => dropNewlines fuel t
    | none => t

end Concord.Toml
