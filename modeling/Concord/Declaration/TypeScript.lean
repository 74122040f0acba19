import Concord.Boundary.Note
import Concord.Boundary.Payload
import Concord.Literal.TypeList
import Concord.Quantity.Identifier

/-! Interfaces, classes with decorated members, object types, enums and aliases. An object type
inside a member is a declaration of its own, named for the owner and the member. -/
namespace Concord.TypeScript

open Text Pattern

def identifierPath : Pattern :=
  all [textStart, dollarName, many (all [char '.', dollarName]), textEnd]

def knownType? (name : String) : Option TypeExpr :=
  match name with
  | "string" => some (.scalar .string)
  | "number" => some (.scalar .numeric)
  | "bigint" => some (.scalar .integer)
  | "boolean" => some (.scalar .boolean)
  | "Date" => some (.formatted .string "date-time")
  | "any" | "unknown" | "object" | "never" | "void" | "Object" | "Function" => some .unknown
  | "Record" | "Map" | "ReadonlyMap" => some .map
  | _ => none

def wrappers : List String :=
  ["Promise", "Readonly", "Required", "Partial", "NonNullable", "Awaited"]

def isNullish (t : List Char) : Bool :=
  ["null", "undefined", "void"].contains (String.ofList t)

/-- The type of a union, where `ofText` reads an alternative: string literals, or the one alternative
that is present; optional if a nullish one is among them. -/
def unionType (ofText : List Char → TypeExpr) (alternatives : List (List Char)) : TypeExpr :=
  let present := alternatives.filter (!isNullish ·)
  let values := present.filterMap Literal.quoted?
  let inner :=
    if !present.isEmpty && values.length == present.length then
      .literals (values.map String.ofList)
    else
      match present with
      | [single] => ofText single
      | _ => .unknown
  if present.length < alternatives.length then .optional inner else inner

def bareType (raw : List Char) : List Char :=
  let text := trim (dropEndWhile (fun c => c == ';' || c == ',') (trim raw))
  match text with
  | '|' :: rest | '&' :: rest => trim rest
  | _ => text

/-- A type; its parts are shorter, so its length bounds `fuel`. -/
def typeWithin : (fuel : Nat) → List Char → TypeExpr
  | 0, _ => .unknown
  | fuel + 1, raw =>
    let text := bareType raw
    let alternatives := Literal.typeList '|' text
    if 1 < alternatives.length then unionType (typeWithin fuel) alternatives
    else
      match dropEnd? "[]" text with
      | some inner => .array (typeWithin fuel inner)
      | none =>
        if text.head? == some '(' && text.getLast? == some ')' then
          typeWithin fuel (text.drop 1).dropLast
        else
          match Literal.quoted? text with
          | some value => .literals [String.ofList value]
          | none =>
            let (nameText, args) := Literal.generic '<' '>' text
            let name := String.ofList nameText
            if !identifierPath.isIn nameText then .unknown
            else
              match knownType? name with
              | some ty => ty
              | none =>
                if ["Array", "ReadonlyArray", "Set", "ReadonlySet"].contains name then
                  .array (match args with
                    | a :: _ => typeWithin fuel a
                    | [] => .unknown)
                else
                  match wrappers.contains name, args with
                  | true, [a] => typeWithin fuel a
                  | _, _ => .named name (args.map (typeWithin fuel))

def typeExpr (text : List Char) : TypeExpr := typeWithin (text.length + 1) text

def genericPart (n : Nat) (stops : String) : Pattern :=
  opt (all [char '<', group n (many (noneOf stops)), char '>'])

def mark (word : String) : Pattern := opt (all [lit word, blanks1])

def interfaceHead : Pattern := all [
  lineStart, gap, mark "export", mark "default", mark "declare", lit "interface", blanks1,
  group 1 dollarName, blanks, genericPart 2 ">\x7b", blanks,
  opt (all [lit "extends", blanks1, group 3 (few1 (noneOf "\x7b;"))]), blanks, char '{']

def classHead : Pattern := all [
  lineStart, gap, mark "export", mark "default", mark "abstract", lit "class", blanks1,
  group 1 dollarName, blanks, genericPart 2 ">\x7b", blanks,
  opt (all [lit "extends", blanks1, group 3 (few1 (wordOr "$.<>, "))]), blanks,
  opt (all [lit "implements", blanks1, many1 (noneOf "\x7b;")]), char '{']

def aliasHead : Pattern := all [
  lineStart, gap, mark "export", mark "declare", lit "type", blanks1, group 1 dollarName, blanks,
  genericPart 2 ">=", blanks, char '=', blanks]

def enumHead : Pattern := all [
  lineStart, gap, mark "export", mark "declare", mark "const", lit "enum", blanks1,
  group 1 dollarName, blanks, char '{']

def member : Pattern := all [
  textStart,
  many (all [lits ["public", "private", "protected", "readonly", "declare", "static"], blanks1]),
  group 1 (any [
    dollarName, all [char '"', many1 (noneOf "\""), char '"'],
    all [char '\'', many1 (noneOf "'"), char '\'']]),
  blanks, opt (group 2 (oneOf "?!")), blanks, char ':', blanks, group 3 (many1 anyChar), textEnd]

def decorator : Pattern := all [
  textStart, char '@', group 1 word, blanks,
  opt (all [char '(', group 2 (many (noneOf "()")), char ')'])]

def genericNames (text : List Char) : List String :=
  (Literal.typeList ',' text).map fun g => String.ofList (g.takeWhile fun c => c != ' ' && c != '=')

/-- How a byte changes the bracket depth, angle brackets included; depth does not fall below zero.
The second half of an arrow is no bracket. -/
def depthAfter (depth : Nat) (prior b : UInt8) : Nat :=
  if b == Byte.openParen || b == Byte.openBracket || b == Byte.openBrace || b == Byte.less then
    depth + 1
  else if b == Byte.greater && prior == Byte.equals then depth
  else if b == Byte.closeParen || b == Byte.closeBracket || b == Byte.closeBrace ||
      b == Byte.greater then
    depth - 1
  else depth

/-- Whether a line break goes on with the type before it. -/
def continues (before after : List Char) : Bool :=
  let before := trimEnd before
  ((trimStart after).head?.any fun c => c == '|' || c == '&') ||
    before.getLast?.all fun c => c == '|' || c == '&' || c == '='

def aliasEndFrom (s : Source) (start : Nat) :
    List UInt8 → (offset depth : Nat) → (prior : UInt8) → Nat
  | [], offset, _, _ => offset
  | b :: rest, offset, depth, prior =>
    if depth == 0 && (b == Byte.semicolon || b == Byte.newline &&
        !continues (s.slice start offset) (s.slice offset s.code.size)) then offset
    else aliasEndFrom s start rest (offset + 1) (depthAfter depth prior b) b

/-- The end of the type that starts at `start`: a semicolon, or a line break that does not go on. -/
def aliasEnd (s : Source) (start : Nat) : Nat :=
  aliasEndFrom s start (s.bare start s.skeleton.size) start 0 (s.skeleton[start - 1]?.getD Byte.space)

def memberCuts : List UInt8 → (offset depth : Nat) → (prior : UInt8) → List Nat
  | [], _, _, _ => []
  | b :: rest, offset, depth, prior =>
    let more := memberCuts rest (offset + 1) (depthAfter depth prior b) b
    if depth == 0 && (b == Byte.semicolon || b == Byte.comma || b == Byte.newline) then
      offset :: more
    else more

/-- The members with `p` added, latest first; a piece of a union that is written over several lines
goes to the member before it. -/
def joinPiece (s : Source) (members : List Span) (p : Span) : List Span :=
  let text := s.spanText p
  match members with
  | last :: before =>
    let prior := trimEnd (s.spanText last)
    if (text.head?.any fun c => c == '|' || c == '&') ||
        (prior.getLast?.any fun c => c == ':' || c == '|' || c == '&') || endsWith "=>" prior then
      ⟨last.start, p.stop⟩ :: before
    else p :: members
  | [] => [p]

def members (s : Source) (opening close : Nat) : List Span :=
  let cuts := memberCuts (s.bare (opening + 1) close) (opening + 1) 0 Byte.openBrace
  (((Source.spansBetween (opening + 1) close cuts).filterMap s.trimSpan?).foldl (joinPiece s) []).reverse

abbrev Decorator := String × List Char

/-- The decorators at the start of a text, and the rest without blanks in front. Each takes at least
one character, so the length of the text bounds `fuel`. -/
def leadingDecorators : (fuel : Nat) → List Char → List Decorator × List Char
  | 0, text => ([], trimStart text)
  | fuel + 1, text =>
    let text := trimStart text
    match decorator.find? text with
    | none => ([], text)
    | some m =>
      let (more, rest) := leadingDecorators fuel (text.drop m.whole.text.length)
      ((m.string 1, m.text 2) :: more, rest)

def beforeInitial (depth : Int) (prior : Option Char) : List Char → List Char
  | [] => []
  | c :: rest =>
    if c == '(' || c == '[' || c == '{' || c == '<' then
      c :: beforeInitial (depth + 1) (some c) rest
    else if c == '>' && prior == some '=' then c :: beforeInitial depth (some c) rest
    else if c == ')' || c == ']' || c == '}' || c == '>' then
      c :: beforeInitial (depth - 1) (some c) rest
    else if c == '=' && depth == 0 && rest.head? != some '>' && rest.head? != some '=' then []
    else c :: beforeInitial depth (some c) rest

structure Decorated where
  ty : TypeExpr
  isOptional : Bool
  format : Option String
  range : Range

def Decorated.with (d : Decorated) (dec : Decorator) : Decorated :=
  match dec.1 with
  | "IsOptional" => { d with isOptional := true }
  | "Min" => { d with range := { d.range with min := Binary64.ofText? (trim dec.2) } }
  | "Max" => { d with range := { d.range with max := Binary64.ofText? (trim dec.2) } }
  | "IsISO8601" | "IsDateString" => { d with format := some "date-time" }
  | "IsUUID" => { d with format := some "uuid" }
  | "IsEmail" => { d with format := some "email" }
  | "IsInt" =>
    match d.ty with
    | .scalar .numeric => { d with ty := .scalar .integer }
    | _ => d
  | _ => d

def fieldOf (s : Source) (name : String) (marker : Option (List Char)) (ty : TypeExpr)
    (decorators : List Decorator) (place : Location) : FieldDecl :=
  let note := Note.fieldNote s place.line
  let nullable := match ty with
    | .optional _ => true
    | _ => false
  let d := decorators.foldl Decorated.with
    ⟨ty, marker == some ['?'] || nullable, note.format, note.range.getD .unbounded⟩
  { FieldDecl.plain name d.ty place with
    required := !d.isOptional
    validated := !d.isOptional
    format := d.format
    unit := note.unit.or (Identifier.unit? name)
    range := (Range.proper? d.range).or note.range }

def decoratorsOf (s : Source) (span : Span) : List Decorator × List Char :=
  let text := s.spanText span
  leadingDecorators (text.length + 1) text

/-- A member as it is written: where it starts, its name, the mark after the name, and its type. -/
structure Member where
  start : Nat
  name : List Char
  marker : Option (List Char)
  typeStart : Nat
  typeText : List Char

def memberOf? (span : Span) (rest : List Char) : Option Member :=
  (member.find? rest).map fun m =>
    let start := span.stop - byteSize rest
    { start
      name := (Literal.quoted? (m.text 1)).getD (m.text 1)
      marker := m.text? 2
      typeStart := start + ((m.part? 3).map (·.start)).getD 0
      typeText := trimEnd (beforeInitial 0 none (m.text 3)) }

def Member.brace? (m : Member) : Option Nat :=
  if (trimStart m.typeText).head? == some '{' then
    some (m.typeStart + byteSize (m.typeText.takeWhile isBlank))
  else none

/-- The fields of a record so far, the records written inside it and the decorators of the next
member. -/
structure RecordSoFar where
  fields : List FieldDecl
  decls : List TypeDecl
  pending : List Decorator

/-- Adds a member to the record `owner`. `inner` reads the record between two braces; one that
reaches beyond its member is refused. -/
def RecordSoFar.add (s : Source)
    (inner : (opening close : Nat) → String → Except BadCut (List FieldDecl × List TypeDecl))
    (owner : String) (r : RecordSoFar) (span : Span) : Except BadCut RecordSoFar :=
  let (decorators, rest) := decoratorsOf s span
  let decorators := r.pending ++ decorators
  if rest.isEmpty then .ok { r with pending := decorators }
  else
    match memberOf? span rest with
    | none => .ok { r with pending := [] }
    | some m =>
      let field := fun ty =>
        fieldOf s (String.ofList m.name) m.marker ty decorators (s.place m.start)
      match m.brace? with
      | none => .ok { r with fields := r.fields ++ [field (typeExpr m.typeText)], pending := [] }
      | some brace =>
        match s.closing? brace with
        | none => .ok { r with pending := [] }
        | some close => do
          let nested := owner ++ "$" ++ String.ofList m.name
          let (fields, decls) ← inner brace close nested
          if span.stop < close + 1 then throw (.inverted (close + 1) span.stop)
          else
            let ty := TypeExpr.named nested []
            let ty :=
              if startsWith "[]" (trimStart (s.slice (close + 1) span.stop)) then .array ty else ty
            return {
              fields := r.fields ++ [field ty]
              decls := r.decls ++ decls ++ [⟨nested, [], .record fields, s.place brace⟩]
              pending := [] }

/-- The fields between the braces of a record, and the records that are written inside it. Nested
braces open later, so the length of the text bounds `fuel`. -/
def recordFields (s : Source) : (fuel : Nat) → (opening close : Nat) → (owner : String) →
    Except BadCut (List FieldDecl × List TypeDecl)
  | 0, _, _, _ => .ok ([], [])
  | fuel + 1, opening, close, owner => do
    let r ← (members s opening close).foldlM (RecordSoFar.add s (recordFields s fuel) owner) ⟨[], [], []⟩
    return (r.fields, r.decls)

def fieldsOf (s : Source) (opening close : Nat) (owner : String) :
    Except BadCut (List FieldDecl × List TypeDecl) :=
  recordFields s (s.text.size + 1) opening close owner

def recordDecls (s : Source) (m : Match) : Except BadCut (List TypeDecl) :=
  match s.closing? (m.stop - 1) with
  | none => .ok []
  | some close => do
    let name := m.string 1
    let bases := (Literal.typeList ',' (m.text 3)).map fun base =>
      FieldDecl.embedded (typeExpr base) (s.place m.start)
    let (fields, inner) ← fieldsOf s (m.stop - 1) close name
    let place := s.place (m.start + byteSize (m.whole.text.takeWhile isBlank))
    return inner ++ [⟨name, genericNames (m.text 2), .record (bases ++ fields), place⟩]

def enumValue (text : List Char) : String :=
  match cutWhere? (· == '=') text with
  | some (key, value) => String.ofList ((Literal.quoted? value).getD (trim key))
  | none => String.ofList (trim text)

def enumDecl? (s : Source) (m : Match) : Option TypeDecl :=
  (s.closing? (m.stop - 1)).map fun close =>
    let values := (s.pieces m.stop close Byte.comma).map fun p => enumValue (s.spanText p)
    ⟨m.string 1, [], .enum values, s.place m.start⟩

/-- The declarations of an alias; one of string literals is an enum. -/
def aliasDecls (s : Source) (m : Match) : Except BadCut (List TypeDecl) := do
  let name := m.string 1
  let decl := fun body => TypeDecl.mk name (genericNames (m.text 2)) body (s.place m.start)
  if s.code[m.stop]? == some Byte.openBrace then
    match s.closing? m.stop with
    | none => return []
    | some close =>
      let (fields, inner) ← fieldsOf s m.stop close name
      return inner ++ [decl (.record fields)]
  else
    match typeExpr (s.slice m.stop (aliasEnd s m.stop)) with
    | .literals values => return [decl (.enum values)]
    | other => return [decl (.synonym other)]

def declarations (s : Source) : Except BadCut (List TypeDecl) := do
  let records ← (s.matchesOf interfaceHead ++ s.matchesOf classHead).mapM (recordDecls s)
  let enums := (s.matchesOf enumHead).filterMap (enumDecl? s)
  let aliases ← (s.matchesOf aliasHead).mapM (aliasDecls s)
  return records.flatten ++ enums ++ aliases.flatten

end Concord.TypeScript
