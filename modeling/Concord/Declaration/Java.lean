import Concord.Boundary.Note
import Concord.Boundary.Payload
import Concord.Literal.TypeList
import Concord.Quantity.Identifier

/-! Classes with annotated fields, records and enums. -/
namespace Concord.Java

open Text Pattern

def bare (name : List Char) : List Char := lastPiece (· == '.') name

/-- The type that a well-known name stands for, whatever its arguments. -/
def knownType? (name : String) : Option TypeExpr :=
  match name with
  | "String" | "CharSequence" | "char" | "Character" | "URI" | "URL" => some (.scalar .string)
  | "int" | "Integer" | "long" | "Long" | "short" | "Short" | "byte" | "Byte" | "BigInteger" =>
    some (.scalar .integer)
  | "double" | "Double" | "float" | "Float" | "BigDecimal" => some (.scalar .number)
  | "Number" => some (.scalar .numeric)
  | "boolean" | "Boolean" => some (.scalar .boolean)
  | "Instant" | "OffsetDateTime" | "ZonedDateTime" | "LocalDateTime" | "Date" | "Timestamp" =>
    some (.formatted .string "date-time")
  | "LocalDate" => some (.formatted .string "date")
  | "UUID" => some (.formatted .string "uuid")
  | "Map" | "HashMap" | "TreeMap" | "LinkedHashMap" | "JsonNode" | "ObjectNode" => some .map
  | "Object" | "?" | "Void" | "void" | "" => some .unknown
  | _ => none

/-- A type; its parts are shorter, so its length bounds `fuel`. -/
def typeWithin : (fuel : Nat) → List Char → TypeExpr
  | 0, _ => .unknown
  | fuel + 1, raw =>
    let text := trim raw
    match dropEnd? "[]" text with
    | some inner => .array (typeWithin fuel inner)
    | none =>
      let (name, args) := Literal.generic '<' '>' text
      let first := match args with
        | a :: _ => typeWithin fuel a
        | [] => .unknown
      match String.ofList (bare name) with
      | "List" | "ArrayList" | "LinkedList" | "Set" | "HashSet" | "TreeSet" | "Collection"
      | "Iterable" | "Flux" => .array first
      | "Optional" => .optional first
      | "Mono" | "CompletableFuture" | "ResponseEntity" | "HttpEntity" => first
      | other =>
        match knownType? other with
        | some ty => ty
        | none =>
          if name.all fun c => isAlphanumeric c || c == '_' || c == '.' then
            .named (String.ofList name) (args.map (typeWithin fuel))
          else .unknown

def typeExpr (text : List Char) : TypeExpr := typeWithin (text.length + 1) text

def isPrimitive (text : List Char) : Bool :=
  ["int", "long", "short", "byte", "double", "float", "boolean", "char"].contains
    (String.ofList (trim text))

def qualified : Pattern := all [letterOr "_", many (wordOr ".")]

def marked : Pattern := all [
  char '@', many1 (wordOr "."), opt (all [char '(', many (noneOf ")"), char ')']), blanks1]

def modifiers (words : List String) : Pattern := many (all [lits words, blanks1])

def typeHead : Pattern := all [
  lineStart, gap, group 1 (many marked),
  modifiers ["public", "private", "protected", "static", "final", "abstract", "sealed", "non-sealed"],
  group 2 (lits ["class", "record", "enum", "interface"]), blanks1, group 3 plainName, blanks,
  opt (group 4 (all [char '<', few (noneOf "\x7b("), char '>']))]

def extending : Pattern := all [
  edge, lit "extends", blanks1,
  group 1 (all [many1 (wordOr "."), opt (all [char '<', many (noneOf "\x7b"), char '>'])])]

def field : Pattern := all [
  textStart, group 1 (many marked),
  group 2 (modifiers ["public", "private", "protected", "static", "final", "transient", "volatile"]),
  group 3 (all [qualified, opt (all [char '<', many anyChar, char '>']), many (lit "[]")]),
  blanks1, group 4 plainName, blanks, opt (all [char '=', many anyChar]), textEnd]

def mark : Pattern := all [
  char '@', group 1 (many1 (wordOr ".")), opt (all [char '(', group 2 (many (noneOf ")")), char ')'])]

def quotedText : Pattern := all [char '"', group 1 (many (noneOf "\"")), char '"']

def number : Pattern := all [opt (char '-'), digits, opt (all [char '.', digits])]

def identifier : Pattern := all [textStart, plainName, textEnd]

structure TypeRegion where
  name : String
  keyword : String
  marks : List Char
  generics : List String
  components : Option Span
  tail : List Char
  header : Nat
  opening : Nat
  close : Nat

def genericNames (text : List Char) : List String :=
  let inner := dropEndWhile (· == '>') (text.dropWhile (· == '<'))
  (Literal.typeList ',' inner).filterMap fun p => (words p).head?.map String.ofList

def typeRegion? (s : Source) (m : Match) : Option TypeRegion := do
  let keyword ← m.part? 2
  let components ←
    if keyword.text == "record".toList then do
      let paren ← s.openParenAfter? m.stop
      let close ← s.closing? paren
      some (some ⟨paren + 1, close⟩)
    else some (none : Option Span)
  let after := (components.map (·.stop + 1)).getD m.stop
  let opening ← s.findBare? after Byte.openBrace
  let tail := s.slice after opening
  if tail.contains ';' then none
  else
    let close ← s.closing? opening
    some {
      name := m.string 3
      keyword := keyword.string
      marks := m.text 1
      generics := genericNames (m.text 4)
      components
      tail
      header := keyword.start
      opening
      close }

def typeRegions (s : Source) : List TypeRegion := (s.matchesOf typeHead).filterMap (typeRegion? s)

/-- The spans that end in a semicolon outside brackets; one starts anew after a closing brace. -/
def statementSpans : List UInt8 → (offset : Nat) → (depth : Int) → (start : Nat) → List Span
  | [], _, _, _ => []
  | b :: rest, offset, depth, start =>
    if b == Byte.semicolon && depth == 0 then
      ⟨start, offset⟩ :: statementSpans rest (offset + 1) depth (offset + 1)
    else
      let depth := depth + Byte.depthStep b
      statementSpans rest (offset + 1) depth
        (if b == Byte.closeBrace && depth == 0 then offset + 1 else start)

def memberStatements (s : Source) (opening close : Nat) : List Span :=
  (statementSpans (s.bare (opening + 1) close) (opening + 1) 0 (opening + 1)).filterMap s.trimSpan?

structure Marks where
  wireName : Option String
  validated : Bool
  nullable : Bool
  ignored : Bool
  format : Option String
  range : Range

def Marks.with (ms : Marks) (m : Match) : Marks :=
  let args := m.text 2
  let bound := (number.find? args).bind fun n => Binary64.ofText? n.whole.text
  match String.ofList (bare (m.text 1)) with
  | "JsonProperty" | "SerializedName" =>
    { ms with wireName := ((quotedText.find? args).map (·.string 1)).filter (!·.isEmpty) }
  | "NotNull" | "NonNull" | "NotBlank" | "NotEmpty" => { ms with validated := true }
  | "Nullable" => { ms with nullable := true }
  | "JsonIgnore" => { ms with ignored := true }
  | "Min" | "DecimalMin" => { ms with range := { ms.range with min := bound } }
  | "Max" | "DecimalMax" => { ms with range := { ms.range with max := bound } }
  | "PositiveOrZero" => { ms with range := { ms.range with min := some (.zero false) } }
  | "Email" => { ms with format := some "email" }
  | _ => ms

def marksIn (text : List Char) : Marks :=
  (mark.findAll text).foldl Marks.with ⟨none, false, false, false, none, .unbounded⟩

/-- The field that a statement or a record component declares. Static and ignored fields are no part
of the payload. -/
def field? (s : Source) (span : Span) : Option FieldDecl := do
  let m ← field.find? (s.spanText span)
  let marks := marksIn (m.text 1)
  if Text.contains "static" (m.text 2) || marks.ignored then none
  else
    let name ← m.part? 4
    let place := s.place (span.start + name.start)
    let ty := typeExpr (m.text 3)
    let primitive := isPrimitive (m.text 3)
    let isOptional := match ty with
      | .optional _ => true
      | _ => false
    let note := Note.fieldNote s place.line
    let f : FieldDecl := { FieldDecl.plain name.string ty place with
      wireName := marks.wireName
      required := primitive || (!marks.nullable && !isOptional)
      validated := marks.validated || primitive
      range := (Range.proper? marks.range).or note.range
      format := marks.format.or note.format }
    some { f with unit := note.unit.or ((Identifier.unit? f.wire).or (Identifier.unit? f.name)) }

/-- The wire form of an enum constant: the name an annotation gives, the first string it is made with
if the enum is written by value, or else its own name. -/
def constant? (byValue : Bool) (text : List Char) : Option String :=
  let plain := trim (mark.replaceAll (fun _ => []) text)
  let (name, args) := match cutWhere? (· == '(') plain with
    | some (name, args) => (trim name, some args)
    | none => (plain, none)
  if !identifier.isIn name then none
  else
    match (marksIn text).wireName with
    | some wire => some wire
    | none =>
      let value := (args.filter fun _ => byValue).bind fun a => (quotedText.find? a).map (·.string 1)
      some (value.getD (String.ofList name))

def constants (s : Source) (r : TypeRegion) : List String :=
  match (s.pieces (r.opening + 1) r.close Byte.semicolon).head? with
  | none => []
  | some span =>
    let byValue := Text.contains "@JsonValue" (s.slice r.opening r.close)
    (s.pieces span.start span.stop Byte.comma).filterMap fun p => constant? byValue (s.spanText p)

def declaration? (s : Source) (r : TypeRegion) : Option TypeDecl :=
  let place := s.place r.header
  let decl := fun body => some (TypeDecl.mk r.name r.generics body place)
  match r.keyword with
  | "interface" => none
  | "enum" => decl (.enum (constants s r))
  | _ =>
    let base := (extending.find? r.tail).map fun m => FieldDecl.embedded (typeExpr (m.text 1)) place
    let members := match r.components with
      | some span => s.pieces span.start span.stop Byte.comma
      | none => memberStatements s r.opening r.close
    decl (.record (base.toList ++ members.filterMap (field? s)))

def declarations (s : Source) : List TypeDecl := (typeRegions s).filterMap (declaration? s)

end Concord.Java
