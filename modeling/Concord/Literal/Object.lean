import Concord.Literal.Quoted
import Concord.Shape.Basic
import Concord.Source.Basic
import Concord.Text.Pattern

/-! The shape of a payload that is written out where it is sent. -/
namespace Concord.Literal

open Text Pattern

def integerLiteral : Pattern := all [textStart, opt (char '-'), digits, opt (oneOf "lL"), textEnd]

def numberLiteral : Pattern := all [
  textStart, opt (char '-'), digits, char '.', digits,
  opt (all [oneOf "eE", opt (oneOf "-+"), digits]), opt (oneOf "fFdD"), textEnd]

def memberKey : Pattern := all [
  textStart,
  any [
    all [char '"', group 1 (many1 (noneOf "\"")), char '"'],
    all [char '\'', group 2 (many1 (noneOf "'")), char '\''], group 3 dollarName],
  blanks, textEnd]

def keyName? (text : List Char) : Option String :=
  (memberKey.find? (trim text)).bind fun m =>
    ((m.text? 1).or ((m.text? 2).or (m.text? 3))).map String.ofList

/-- The kind of a value that is neither an object, an array nor a literal, as far as its text tells:
kind, format and whether it is certain. -/
def expressionShape (text : List Char) (shape : Shape) : Shape :=
  if text == "true".toList || text == "false".toList || text == "True".toList ||
      text == "False".toList then { shape with kind := .boolean }
  else if text == "null".toList || text == "None".toList || text == "nil".toList ||
      text == "undefined".toList then
    { shape with required := false, confidence := .inferred }
  else
    let shape := { shape with confidence := .inferred }
    if endsWith ".toISOString()" text || contains ".isoformat()" text then
      { shape with kind := .string, format := some "date-time" }
    else if startsWith "String(" text || startsWith "str(" text then { shape with kind := .string }
    else if startsWith "int(" text || startsWith "parseInt(" text || startsWith "Math.round(" text then
      { shape with kind := .integer }
    else if startsWith "float(" text || startsWith "parseFloat(" text then
      { shape with kind := .number }
    else if startsWith "Number(" text then { shape with kind := .numeric }
    else shape

def scalarShape (text : List Char) (shape : Shape) : Shape :=
  match quoted? text with
  | some value => { shape with kind := .string, enumValues := [String.ofList value] }
  | none =>
    if text.head?.any isQuote || startsWith "f\"" text || startsWith "f'" text then
      { shape with kind := .string }
    else if integerLiteral.isIn text then { shape with kind := .integer }
    else if numberLiteral.isIn text then { shape with kind := .number }
    else expressionShape text shape

/-- A member of an object: what its text says before a value is looked at. -/
inductive Entry
  | spread
  | keyless
  | shorthand (key : String)
  | member (key : String) (value : Span)

def entryAt (s : Source) (span : Span) : Entry :=
  let text := s.spanText span
  if startsWith "..." text || startsWith "**" text then .spread
  else
    match (s.bare span.start span.stop).findIdx? (· == Byte.colon) with
    | some i =>
      match keyName? (s.slice span.start (span.start + i)) with
      | some key => .member key ⟨span.start + i + 1, span.stop⟩
      | none => .keyless
    | none =>
      match keyName? text with
      | some key => .shorthand key
      | none => .keyless

def firstLine (s : Source) (span : Span) : String :=
  String.ofList (trim ((s.spanText span).takeWhile (· != '\n')))

mutual

/-- The shape of the object whose opening brace is at `opening`. Objects and arrays nest less deeply
than the text is long, which bounds `fuel`. -/
def objectShape (s : Source) : (fuel : Nat) → (opening : Nat) → (name : String) → Shape
  | 0, opening, name => Shape.obscure name ⟨s.place opening, s.excerpt opening⟩
  | fuel + 1, opening, name =>
    let shape := Shape.plain name .object ⟨s.place opening, s.excerpt opening⟩
    match s.closing? opening with
    | none => { shape with confidence := .inferred }
    | some close =>
      (s.pieces (opening + 1) close Byte.comma).foldl (fun shape span =>
        let origin : Origin := ⟨s.place span.start, firstLine s span⟩
        match entryAt s span with
        | .spread => { shape with confidence := .inferred }
        | .keyless => shape
        | .shorthand key => { shape with children := shape.children ++ [Shape.obscure key origin] }
        | .member key value =>
          { shape with children := shape.children ++ [valueShape s fuel value key origin] }) shape

def valueShape (s : Source) : (fuel : Nat) → Span → (name : String) → Origin → Shape
  | 0, _, name, origin => Shape.obscure name origin
  | fuel + 1, span, name, origin =>
    let raw := s.spanText span
    let text := trim raw
    let offset := span.start + byteSize (raw.takeWhile isBlank)
    match text with
    | '{' :: _ => objectShape s fuel offset name
    | '[' :: _ =>
      let shape := Shape.plain name .array origin
      match s.closing? offset with
      | none => shape
      | some close =>
        match s.pieces (offset + 1) close Byte.comma with
        | [] => shape
        | item :: _ => { shape with items := some (valueShape s fuel item "[]" origin) }
    | _ => scalarShape text (Shape.plain name .unknown origin)

end

def object (s : Source) (opening : Nat) (name : String) : Shape :=
  objectShape s (s.text.size + 1) opening name

end Concord.Literal
