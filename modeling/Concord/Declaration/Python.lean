import Concord.Boundary.Note
import Concord.Boundary.Payload
import Concord.Literal.TypeList
import Concord.Quantity.Identifier

/-! Classes with typed members, typed dictionaries and enums. -/
namespace Concord.Python

open Text Pattern

def bare (name : List Char) : List Char := lastPiece (· == '.') name

def knownType? (name : String) : Option TypeExpr :=
  match name with
  | "Dict" | "dict" | "Mapping" | "MutableMapping" => some .map
  | "str" | "constr" | "HttpUrl" | "AnyUrl" | "AnyHttpUrl" => some (.scalar .string)
  | "EmailStr" => some (.formatted .string "email")
  | "int" | "conint" | "PositiveInt" | "NonNegativeInt" | "StrictInt" => some (.scalar .integer)
  | "float" | "confloat" | "PositiveFloat" | "NonNegativeFloat" => some (.scalar .number)
  | "Decimal" | "condecimal" => some (.formatted .string "decimal_string")
  | "bool" | "StrictBool" => some (.scalar .boolean)
  | "datetime" | "AwareDatetime" => some (.formatted .string "date-time")
  | "date" => some (.formatted .string "date")
  | "UUID" | "UUID4" => some (.formatted .string "uuid")
  | "Any" | "object" | "None" | "" => some .unknown
  | _ => none

/-- The type of a union, where `ofText` reads an alternative: the one alternative that is not
`None`, optional if `None` is among them. -/
def unionType (ofText : List Char → TypeExpr) (alternatives : List (List Char)) : TypeExpr :=
  let present := alternatives.filter fun a => trim a != "None".toList
  let inner := match present with
    | [single] => ofText single
    | _ => .unknown
  if present.length < alternatives.length then .optional inner else inner

/-- A type hint; its parts are shorter, so its length bounds `fuel`. -/
def typeWithin : (fuel : Nat) → List Char → TypeExpr
  | 0, _ => .unknown
  | fuel + 1, raw =>
    let text := trim raw
    match Literal.quoted? text with
    | some inner => typeWithin fuel inner
    | none =>
      let alternatives := Literal.typeList '|' text
      if 1 < alternatives.length then unionType (typeWithin fuel) alternatives
      else
        let (name, args) := Literal.generic '[' ']' text
        let first := match args with
          | a :: _ => typeWithin fuel a
          | [] => .unknown
        match String.ofList (bare name) with
        | "Optional" => .optional first
        | "Union" => unionType (typeWithin fuel) args
        | "Literal" =>
          let values := args.filterMap Literal.quoted?
          if values.isEmpty then .unknown else .literals (values.map String.ofList)
        | "Annotated" | "Required" | "NotRequired" | "ClassVar" | "Final" => first
        | "List" | "list" | "Sequence" | "Set" | "set" | "FrozenSet" | "frozenset" | "Tuple"
        | "tuple" | "Iterable" | "conlist" => .array first
        | other =>
          match knownType? other with
          | some ty => ty
          | none =>
            if name.all fun c => isAlphanumeric c || c == '_' || c == '.' then
              .named (String.ofList name) (args.map (typeWithin fuel))
            else .unknown

def typeExpr (text : List Char) : TypeExpr := typeWithin (text.length + 1) text

def classHead : Pattern := all [
  lineStart, gap, lit "class", blanks1, group 1 plainName, blanks, opt (group 2 (lit "("))]

def member : Pattern := all [
  textStart, group 1 plainName, blanks, char ':', blanks, group 2 (many1 anyChar), textEnd]

def enumMember : Pattern := all [
  textStart, group 1 plainName, blanks, char '=', blanks, group 2 (many1 anyChar), textEnd]

def identifier : Pattern := all [textStart, plainName, textEnd]

/-- The parts before and after the first assignment sign outside quotes and brackets. -/
def defaultFrom (quote : Option Char) (depth : Int) (prior : Option Char) :
    List Char → Option (List Char × List Char)
  | [] => none
  | c :: rest =>
    let keep := fun (r : Option (List Char × List Char)) => r.map fun p => (c :: p.1, p.2)
    match quote with
    | some q => keep (defaultFrom (if c == q then none else some q) depth (some c) rest)
    | none =>
      if c == '"' || c == '\'' then keep (defaultFrom (some c) depth (some c) rest)
      else if c == '(' || c == '[' || c == '{' then keep (defaultFrom none (depth + 1) (some c) rest)
      else if c == ')' || c == ']' || c == '}' then keep (defaultFrom none (depth - 1) (some c) rest)
      else if c == '=' && depth == 0 && rest.head? != some '=' &&
          !prior.any fun p => p == '=' || p == '!' || p == '<' || p == '>' then some ([], rest)
      else keep (defaultFrom none depth (some c) rest)

def splitDefault (text : List Char) : List Char × Option (List Char) :=
  match defaultFrom none 0 none text with
  | some (head, value) => (trim head, some (trim value))
  | none => (trim text, none)

structure DefaultSpec where
  hasDefault : Bool
  wireName : Option String
  range : Range

def DefaultSpec.withArgument (spec : DefaultSpec) (first : Bool) (arg : List Char) : DefaultSpec :=
  match (cutWhere? (· == '=') arg).filter fun p => identifier.isIn (trim p.1) with
  | none => if first && arg != "...".toList then { spec with hasDefault := true } else spec
  | some (key, value) =>
    let value := trim value
    match String.ofList (trim key) with
    | "default" => { spec with hasDefault := value != "...".toList }
    | "default_factory" => { spec with hasDefault := true }
    | "alias" =>
      if spec.wireName.isNone then { spec with wireName := (Literal.quoted? value).map String.ofList }
      else spec
    | "serialization_alias" => { spec with wireName := (Literal.quoted? value).map String.ofList }
    | "ge" | "gt" => { spec with range := { spec.range with min := Binary64.ofText? value } }
    | "le" | "lt" => { spec with range := { spec.range with max := Binary64.ofText? value } }
    | _ => spec

def defaultSpec (value : List Char) : DefaultSpec :=
  let plain : DefaultSpec := ⟨true, none, .unbounded⟩
  match cutWhere? (· == '(') value with
  | some (callee, rest) =>
    let name := bare (trim callee)
    if value.getLast? == some ')' && (name == "Field".toList || name == "field".toList) then
      match Literal.typeList ',' rest.dropLast with
      | [] => { plain with hasDefault := false }
      | a :: more =>
        more.foldl (·.withArgument false ·) (({ plain with hasDefault := false }).withArgument true a)
    else plain
  | none => plain

def colonFrom? : List UInt8 → (offset : Nat) → (depth : Int) → Option Nat
  | [], _, _ => none
  | b :: rest, offset, depth =>
    if b == Byte.colon && depth == 0 then some offset
    else if b == Byte.openParen || b == Byte.openBracket then colonFrom? rest (offset + 1) (depth + 1)
    else if b == Byte.closeParen || b == Byte.closeBracket then
      colonFrom? rest (offset + 1) (depth - 1)
    else colonFrom? rest (offset + 1) depth

def headerColon? (s : Source) (start : Nat) : Option Nat :=
  colonFrom? (s.bare start s.skeleton.size) start 0

/-- The logical lines of a block that stand at the indentation of its first. -/
def blockMembers (s : Source) (start stop : Nat) : List Span :=
  match s.pieces start stop Byte.newline with
  | [] => []
  | p :: ps =>
    let indent := (s.place p.start).column
    (p :: ps).filter fun q => (s.place q.start).column == indent

def memberField? (s : Source) (typedDict total : Bool) (span : Span) : Option FieldDecl := do
  let m ← member.find? (s.spanText span)
  let name := m.text 1
  if name.head? == some '_' || name == "model_config".toList || name == "Config".toList then none
  else
    let (hint, value) := splitDefault (m.text 2)
    if startsWith "ClassVar" hint then none
    else
      let place := s.place span.start
      let ty := typeExpr hint
      let spec := (value.map defaultSpec).getD ⟨false, none, .unbounded⟩
      let isOptional := match ty with
        | .optional _ => true
        | _ => false
      let note := Note.fieldNote s place.line
      let f : FieldDecl := { FieldDecl.plain (String.ofList name) ty place with
        wireName := spec.wireName
        required :=
          if typedDict then total && !startsWith "NotRequired" hint
          else !isOptional && value != some "None".toList
        validated := !typedDict && !spec.hasDefault
        range := (Range.proper? spec.range).or note.range
        format := note.format }
      some { f with
        unit := note.unit.or ((Identifier.unit? f.wire).or (Identifier.unit? f.name)) }

def enumBases : List String := ["Enum", "StrEnum", "IntEnum"]

structure Bases where
  generics : List String
  inherited : List (List Char)
  isEnum : Bool
  typedDict : Bool
  total : Bool

def plainBases : List String :=
  ["BaseModel", "object", "TypedDict", "Protocol", "ABC", "NamedTuple", "SQLModel", "Schema",
    "Generic", "RootModel"]

def Bases.with (b : Bases) (base : List Char) : Bases :=
  match cutWhere? (· == '=') base with
  | some (key, value) =>
    if trim key == "total".toList && trim value == "False".toList then { b with total := false } else b
  | none =>
    let (name, args) := Literal.generic '[' ']' base
    let name := String.ofList (bare name)
    if name == "Generic" then { b with generics := b.generics ++ args.map String.ofList }
    else if name == "TypedDict" then { b with typedDict := true }
    else if enumBases.contains name then { b with isEnum := true }
    else if name == "str" || name == "int" || plainBases.contains name then b
    else { b with inherited := b.inherited ++ [base] }

def basesOf (text : List Char) : Bases :=
  (Literal.typeList ',' text).foldl Bases.with ⟨[], [], false, false, true⟩

def enumValue? (text : List Char) : Option String :=
  (enumMember.find? text).bind fun m =>
    if (m.text 1).head? == some '_' then none
    else
      let value := trim (m.text 2)
      match Literal.quoted? value with
      | some v => some (String.ofList v)
      | none =>
        if value == "auto()".toList then some (String.ofList (lower (m.text 1)))
        else some (String.ofList value)

/-- The class that a header declares; none if the header is not complete. A body that ends before
its header is refused. -/
def classDecl? (s : Source) (m : Match) : Except BadCut (Option TypeDecl) :=
  let basesText := match m.part? 2 with
    | some p => (s.closing? p.start).map fun close => s.slice (p.start + 1) close
    | none => some []
  match basesText, m.part? 1 with
  | some basesText, some name =>
    match headerColon? s name.start with
    | none => .ok none
    | some colon =>
      let stop := s.blockEnd name.start
      if stop < colon + 1 then .error (.inverted (colon + 1) stop)
      else
        let place := s.place (m.start + byteSize (m.whole.text.takeWhile isBlank))
        let bases := basesOf basesText
        let members := blockMembers s (colon + 1) stop
        let body :=
          if bases.isEnum then .enum (members.filterMap fun p => enumValue? (s.spanText p))
          else .record (bases.inherited.map (fun b => FieldDecl.embedded (typeExpr b) place) ++
            members.filterMap (memberField? s bases.typedDict bases.total))
        .ok (some ⟨name.string, bases.generics, body, place⟩)
  | _, _ => .ok none

def declarations (s : Source) : Except BadCut (List TypeDecl) := do
  let found ← (s.matchesOf classHead).mapM (classDecl? s)
  return found.filterMap id

end Concord.Python
