import Concord.Boundary.Basic
import Concord.Source.Basic
import Concord.Text.Pattern

/-! Comments may bind the boundary below them to a contract, and may tell unit, format and range of
the field beside or below them. -/
namespace Concord.Note

open Text Pattern

def bindMark : Pattern := all [lit "contract-bind", edge, group 1 (many inLine), textEnd]

def bindPair : Pattern := all [
  group 1 word, blanks, char '=', blanks,
  any [
    all [char '"', group 2 (many (noneOf "\"")), char '"'],
    all [char '\'', group 3 (many (noneOf "'")), char '\''],
    group 4 (many1 nonBlank)]]

def endpointId (raw : List Char) : String :=
  match cutWhere? isBlank (trim raw) with
  | some (method, path) => String.ofList (asciiUpper method ++ ' ' :: trim path)
  | none => String.ofList (trim raw)

def roleOf? (value : List Char) : Option Role :=
  match String.ofList (asciiLower value) with
  | "producer" => some .producer
  | "consumer" => some .consumer
  | _ => none

def Hint.withPair (hint : Hint) (m : Match) : Hint :=
  let value := trim (((m.text? 2).or ((m.text? 3).or (m.text? 4))).getD [])
  match m.string 1 with
  | "contract" => { hint with contract := some (String.ofList value) }
  | "endpoint" => { hint with endpoint := some (endpointId value) }
  | "service" => { hint with service := some (String.ofList value) }
  | "role" => { hint with role := roleOf? value }
  | _ => hint

def hintIn? (location : Location) (line : List Char) : Option Hint :=
  (bindMark.find? line).map fun m =>
    (bindPair.findAll (m.text 1)).foldl Hint.withPair ⟨none, none, none, none, location⟩

def hints (s : Source) : List (Nat × Hint) :=
  let found := s.comments.flatMap fun c =>
    (lines c.text.toList).filterMap fun line => (hintIn? ⟨s.path, c.line, 1⟩ line).map (c.line, ·)
  found.mergeSort fun a b => a.1 ≤ b.1

def noteHead (word : String) (long : Pattern) : Pattern := any [
  all [litAnyCase ("@" ++ word), long, blanks1],
  all [edge, litAnyCase word, blanks, oneOf ":=", blanks]]

def unitNote : Pattern := all [noteHead "unit" empty, group 1 (many1 (letterAnyCaseOr "_"))]

def formatNote : Pattern := all [noteHead "format" empty, group 1 (many1 (alnumAnyCaseOr "_-"))]

def boundNote (word : String) : Pattern := all [
  noteHead word (opt (litAnyCase "imum")),
  group 1 (all [opt (char '-'), digits, opt (all [char '.', digits])])]

structure FieldNote where
  unit : Option String
  format : Option String
  range : Option Range
  deriving Repr, Inhabited

def isBeside (c : Comment) (line : Nat) : Bool :=
  c.line == line || c.line + max (lines c.text.toList).length 1 == line

/-- What the comments on a line or right above it tell; of several the last counts. -/
def fieldNote (s : Source) (line : Nat) : FieldNote :=
  let beside := (s.comments.filter (isBeside · line)).map (·.text.toList)
  let last := fun (p : Pattern) => (beside.filterMap p.find?).getLast?
  let bound := fun (word : String) => (last (boundNote word)).bind fun m => Binary64.ofText? (m.text 1)
  { unit := (last unitNote).map (·.string 1)
    format := (last formatNote).map (·.string 1)
    range := Range.proper? ⟨bound "min", bound "max"⟩ }

end Concord.Note
