import Concord.Boundary.Note
import Concord.Boundary.Payload
import Concord.Literal.TypeList
import Concord.Quantity.Identifier

/-! Structs with their tags and embedded types, string types with constants, and aliases. -/
namespace Concord.Go

open Text Pattern

def isQualifiedName (t : List Char) : Bool := t.all fun c => isAlphanumeric c || c == '_' || c == '.'

def knownType? (name : String) : Option TypeExpr :=
  match name with
  | "string" => some (.scalar .string)
  | "int" | "int8" | "int16" | "int32" | "int64" | "uint" | "uint8" | "uint16" | "uint32"
  | "uint64" => some (.scalar .integer)
  | "float32" | "float64" => some (.scalar .number)
  | "json.Number" => some (.scalar .numeric)
  | "bool" => some (.scalar .boolean)
  | "time.Time" => some (.formatted .string "date-time")
  | "uuid.UUID" => some (.formatted .string "uuid")
  | "any" | "interface\x7b\x7d" | "json.RawMessage" => some .unknown
  | _ => none

/-- A type expression; its parts are shorter, so its length bounds `fuel`. -/
def typeWithin : (fuel : Nat) → List Char → TypeExpr
  | 0, _ => .unknown
  | fuel + 1, raw =>
    let text := trim raw
    match dropStart? "*" text with
    | some inner => .optional (typeWithin fuel inner)
    | none =>
      if text == "[]byte".toList then .scalar .string
      else
        match dropStart? "[]" text with
        | some inner => .array (typeWithin fuel inner)
        | none =>
          if startsWith "map[" text then .map
          else
            match knownType? (String.ofList text) with
            | some ty => ty
            | none =>
              let (name, args) := Literal.generic '[' ']' text
              if isQualifiedName name && !name.isEmpty then
                .named (String.ofList name) (args.map (typeWithin fuel))
              else .unknown

def typeExpr (text : List Char) : TypeExpr := typeWithin (text.length + 1) text

def typeSpec : Pattern := all [
  lineStart, any [all [lit "type", gap1], gap1], group 1 plainName,
  opt (all [char '[', group 2 (many (noneOf "]\n")), char ']']), gap1,
  opt (group 3 (all [char '=', gap])),
  group 4 (any [all [lit "struct", gap, char '{'], many1 (noneOf "\n\x7b")]), lineEnd]

def typeGroup : Pattern := all [lineStart, lit "type", blanks, char '(']

def field : Pattern := all [
  textStart, group 1 (all [plainName, many (all [blanks, char ',', blanks, plainName])]), blanks1,
  group 2 (few1 (noneOf "`")), blanks,
  opt (all [char '`', group 3 (many (noneOf "`")), char '`']), textEnd]

def embedding : Pattern := all [
  textStart, opt (char '*'), group 1 (all [letterOr "_", many (wordOr ".")]), blanks,
  opt (all [char '`', group 2 (many (noneOf "`")), char '`']), textEnd]

def nestedStruct : Pattern := all [
  textStart, group 1 plainName, blanks1, opt (group 2 (lit "[]")), opt (char '*'), lit "struct",
  blanks, char '{']

def tagPair : Pattern := all [group 1 word, lit ":\"", group 2 (many (noneOf "\"")), char '"']

def constant : Pattern := all [
  lineStart, blanks, opt (all [lit "const", blanks1]), plainName, blanks1, group 1 plainName, blanks,
  char '=', blanks, char '"', group 2 (many (noneOf "\"")), char '"']

abbrev Tags := List (String × List Char)

def tagsOf (raw : List Char) : Tags := ((tagPair.findAll raw).map fun m => (m.string 1, m.text 2)).reverse

/-- What the `json` tag of a field says: whether the field is left out, its name on the wire, and
whether it may be absent. -/
structure JsonTag where
  hidden : Bool
  wireName : Option String
  omitted : Bool

def jsonTag (tags : Tags) : JsonTag :=
  match tags.lookup "json" with
  | none => ⟨false, none, false⟩
  | some text =>
    match split ',' text with
    | [] => ⟨false, none, false⟩
    | wire :: options => {
        hidden := wire == ['-']
        wireName := if wire.isEmpty then none else some (String.ofList wire)
        omitted := options.any fun o => o == "omitempty".toList || o == "omitzero".toList }

/-- A validation rule as it bears on a field: the field and the range gathered so far. -/
def withRule (acc : FieldDecl × Range) (rule : List Char) : FieldDecl × Range :=
  let (f, r) := acc
  let (key, value) := (cutWhere? (· == '=') rule).getD (rule, [])
  match String.ofList key with
  | "required" => ({ f with validated := true }, r)
  | "min" | "gte" | "gt" => (f, { r with min := Binary64.ofText? value })
  | "max" | "lte" | "lt" => (f, { r with max := Binary64.ofText? value })
  | "oneof" => ({ f with ty := .literals ((words value).map String.ofList) }, r)
  | "uuid" | "uuid4" => ({ f with format := some "uuid" }, r)
  | "email" => ({ f with format := some "email" }, r)
  | "iso3166_1_alpha2" => ({ f with format := some "alpha2" }, r)
  | "iso3166_1_alpha3" => ({ f with format := some "alpha3" }, r)
  | "datetime" | "rfc3339" => ({ f with format := some "date-time" }, r)
  | _ => acc

/-- A field of a struct, by its tags and the comments beside it. None for a field that is not
exported or is left out of the payload. -/
def taggedField? (name : List Char) (ty : TypeExpr) (tags : Tags) (note : Note.FieldNote)
    (place : Location) : Option FieldDecl :=
  let json := jsonTag tags
  if !name.head?.any isUpper || json.hidden then none
  else
    let isOptional := match ty with
      | .optional _ => true
      | _ => false
    let base : FieldDecl := { FieldDecl.plain (String.ofList name) ty place with
      wireName := json.wireName
      required := !json.omitted && !isOptional }
    let rules := ([tags.lookup "validate", tags.lookup "binding"].filterMap id).flatMap (split ',')
    let (f, r) := rules.foldl withRule (base, note.range.getD .unbounded)
    let f : FieldDecl := { f with
      range := (Range.proper? r).or f.range
      format := ((tags.lookup "format").map String.ofList).or (note.format.or f.format) }
    some { f with
      unit := ((tags.lookup "unit").map String.ofList).or (note.unit.or
        ((Identifier.unit? f.wire).or (Identifier.unit? (String.ofList name)))) }

/-- An embedded type: a member if a `json` tag names it, and the members of the type otherwise. -/
def embeddedField (typeText tagText : List Char) (place : Location) : FieldDecl :=
  let wire := ((tagsOf tagText).lookup "json").bind fun json =>
    ((split ',' json).head?).filter fun w => !w.isEmpty && w != ['-']
  match wire with
  | some wire =>
    let bare := lastPiece (· == '.') typeText
    { FieldDecl.plain (String.ofList bare) (typeExpr typeText) place with
      wireName := some (String.ofList wire) }
  | none => FieldDecl.embedded (typeExpr typeText) place

/-- The fields between the braces of a struct, and the structs that are written inside it, each with
a name made from `owner` and the field. -/
def structFields (s : Source) :
    (fuel : Nat) → (opening close : Nat) → (owner : String) → List FieldDecl × List TypeDecl
  | 0, _, _, _ => ([], [])
  | fuel + 1, opening, close, owner =>
    (s.pieces (opening + 1) close Byte.newline).foldl (fun (fields, decls) span =>
      let text := trimEnd (dropEndWhile (· == ';') (s.spanText span))
      let place := s.place span.start
      let add := fun (names : List (List Char)) (ty : TypeExpr) (tag : List Char) =>
        fields ++ names.filterMap fun name =>
          taggedField? name ty (tagsOf tag) (Note.fieldNote s place.line) place
      match nestedStruct.find? text with
      | some m =>
        let brace := span.start + m.stop - 1
        match s.closing? brace with
        | none => (fields, decls)
        | some innerClose =>
          let name := owner ++ "_" ++ m.string 1
          let (inner, more) := structFields s fuel brace innerClose name
          let ty := TypeExpr.named name []
          let ty := if (m.part? 2).isSome then .array ty else ty
          let tag := trimWhere (· == '`') (trim (s.slice (innerClose + 1) span.stop))
          (add [m.text 1] ty tag, decls ++ more ++ [⟨name, [], .record inner, s.place brace⟩])
      | none =>
        match (field.find? text).filter fun m => !(trim (m.text 2)).isEmpty with
        | some m => (add ((split ',' (m.text 1)).map trim) (typeExpr (m.text 2)) (m.text 3), decls)
        | none =>
          match embedding.find? text with
          | some m => (fields ++ [embeddedField (m.text 1) (m.text 2) place], decls)
          | none => (fields, decls)) ([], [])

def typeGroups (s : Source) : List Span :=
  (s.matchesOf typeGroup).filterMap fun m =>
    (s.closing? (m.stop - 1)).map fun close => ⟨m.stop - 1, close⟩

/-- Whether an offset lies between braces that are opened after `start`. -/
def insideBraces (s : Source) (start offset : Nat) : Bool :=
  0 < Byte.total (fun b => if b == Byte.openBrace then 1 else if b == Byte.closeBrace then -1 else 0)
    (s.bare start offset)

def constantsOf (s : Source) (name : String) : List String :=
  ((s.matchesOf constant).filter (·.string 1 == name)).map (·.string 2)

/-- Whether a match of `typeSpec` declares a type: it starts with the keyword, or stands directly in
a group. -/
def declaresType (s : Source) (groups : List Span) (m : Match) : Bool :=
  let around := groups.filter (·.contains m.start)
  (startsWith "type" m.whole.text || !around.isEmpty) &&
    !around.any fun g => insideBraces s g.start m.start

def genericNames (text : List Char) : List String :=
  (split ',' text).filterMap fun p => (words p).head?.map String.ofList

def declarations (s : Source) : List TypeDecl :=
  let groups := typeGroups s
  ((s.matchesOf typeSpec).filter (declaresType s groups)).flatMap fun m =>
    let name := m.string 1
    let generics := genericNames (m.text 2)
    let rhs := trim (m.text 4)
    let location := s.place (m.start + byteSize (m.whole.text.takeWhile isBlank))
    if startsWith "struct" rhs then
      match s.closing? (m.stop - 1) with
      | none => []
      | some close =>
        let (fields, inner) := structFields s (s.text.size + 1) (m.stop - 1) close name
        inner ++ [⟨name, generics, .record fields, location⟩]
    else
      let values := constantsOf s name
      if rhs == "string".toList && !values.isEmpty then [⟨name, generics, .enum values, location⟩]
      else [⟨name, generics, .synonym (typeExpr rhs), location⟩]

end Concord.Go
