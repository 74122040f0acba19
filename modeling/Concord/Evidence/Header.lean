import Concord.Source.Basic
import Concord.Text.Case
import Concord.Text.Pattern
import Concord.Text.Sorted

/-! # Header names -/
namespace Concord.Header

open Text Pattern

def namePattern : Pattern := any [
  all [
    litAnyCase "header", opt (char 's'), blanks,
    opt (all [
      char '.', blanks, litsAnyCase ["get", "getfirst", "get_header", "set", "add", "append"],
      blanks]),
    oneOf "([", blanks, oneOf "\"'", group 1 (many1 (alnumOr "_-")), oneOf "\"'"],
  all [edge, lit "req.get(", blanks, oneOf "\"'", group 2 (many1 (alnumOr "_-")), oneOf "\"'"],
  all [lit "setRequestProperty(", blanks, char '"', group 3 (many1 (alnumOr "_-")), char '"']]

def parameter : Pattern := all [
  edge, group 1 word, blanks, char ':', blanks, many1 (wordOr "[]|. "), char '=', blanks,
  lit "Header("]

def mapStart : Pattern := all [
  litAnyCase "headers", blanks, oneOf ":=", blanks,
  opt (all [lit "new", blanks1, word, blanks, char '(', blanks]), char '{']

def mapKey : Pattern := all [
  oneOf "\"'", group 1 (all [letterOr "", many (alnumOr "_-")]), oneOf "\"'", blanks, char ':']

def names (s : Source) (start stop : Nat) : List String :=
  let code := s.slice start stop
  let called := (namePattern.findAll code).filterMap fun m =>
    ((m.text? 1).or ((m.text? 2).or (m.text? 3))).map String.ofList
  let filled := (parameter.findAll code).map fun m => String.ofList (replaceChar '_' ['-'] (m.text 1))
  let listed := (mapStart.findAll code).flatMap fun m =>
    let opening := start + m.stop - 1
    match s.closing? opening with
    | none => []
    | some close => (mapKey.findAll (s.slice opening close)).map (·.string 1)
  sortedUnique (called ++ filled ++ listed)

/-- The form of a header name without case, and with a dash for an underscore. -/
def fold (name : String) : List Char := replaceChar '_' ['-'] (asciiLower name.toList)

def same (a b : String) : Bool := fold a == fold b

end Concord.Header
