import Concord.Boundary.Attach
import Concord.Declaration.Java
import Concord.Literal.Template
import Concord.Number.Natural
import Concord.Route

/-! Mapped controller methods and client interfaces, request templates, chained web clients and
built requests. -/
namespace Concord.Java

open Text Pattern

def methodHead : Pattern := all [
  lineStart, gap, group 1 (many marked),
  modifiers [
    "public", "private", "protected", "static", "final", "synchronized", "abstract", "default"],
  opt (all [char '<', many1 (noneOf ">\n"), char '>', blanks1]),
  group 2 (all [
    qualified, opt (all [char '<', many (noneOf "\n;\x7b\x7d()"), char '>']), many (lit "[]")]),
  blanks1, group 3 plainName, blanks, char '(']

def mapping : Pattern := all [
  char '@', group 1 (lits ["Get", "Post", "Put", "Patch", "Delete", "Request"]), lit "Mapping", edge,
  opt (all [char '(', group 2 (many (noneOf ")")), char ')'])]

def mappingPath : Pattern := all [
  any [
    all [edge, lits ["value", "path"], blanks, char '=', blanks, opt (char '{'), blanks],
    all [textStart, blanks, opt (char '{'), blanks]],
  quotedText]

def clientPath : Pattern := all [edge, lit "path", blanks, char '=', blanks, quotedText]

def requestMethod : Pattern := all [lit "RequestMethod.", group 1 word]

def requestBody : Pattern := all [
  lit "@RequestBody", blanks1, many marked, opt (all [lit "final", blanks1]),
  group 1 (all [qualified, opt (all [char '<', few (noneOf "()"), char '>']), many (lit "[]")]),
  blanks1, word]

def entityBody : Pattern := all [
  any [
    all [lit "ResponseEntity", blanks, char '.', blanks, lits ["ok", "accepted"]], lit ".body",
    all [lit "new", blanks1, lit "ResponseEntity", blanks, char '<', many (noneOf ">"), char '>']],
  blanks, char '(']

def nonSuccess : Pattern := any [
  all [
    lit "HttpStatus.",
    lits [
      "BAD", "NOT", "UNAUTHORIZED", "FORBIDDEN", "CONFLICT", "GONE", "UNPROCESSABLE", "TOO",
      "INTERNAL", "SERVICE", "BAD_GATEWAY", "GATEWAY"]],
  all [
    char '.', lits ["badRequest", "notFound", "unprocessableEntity", "internalServerError"], char '(']]

def templateCall : Pattern := all [
  edge, group 1 qualified, char '.',
  group 2 (lits [
    "getForObject", "getForEntity", "postForObject", "postForEntity", "patchForObject", "put",
    "delete", "exchange"]),
  blanks, char '(']

def templateReceiver : Pattern := all [
  any [
    all [litAnyCase "rest", many wordChar], all [many wordChar, litAnyCase "template"],
    all [many wordChar, litAnyCase "client"]],
  textEnd]

def chainedCall : Pattern := all [
  char '.', group 1 (lits ["get", "post", "put", "patch", "delete"]), char '(', blanks, char ')',
  blanks, lit ".uri("]

def bodyValue : Pattern :=
  any [all [char '.', lits ["bodyValue", "syncBody"], char '('], lit "BodyInserters.fromValue("]

def className : Pattern := all [qualified, opt (lit "[]")]

def bodyTo : Pattern := all [
  char '.', group 1 (lits ["bodyToMono", "bodyToFlux", "toEntity", "toEntityList"]), char '(', blanks,
  group 2 className, lit ".class"]

def builtRequest : Pattern :=
  all [edge, lit "HttpRequest", blanks, char '.', blanks, lit "newBuilder", blanks, char '(']

def builderMethod : Pattern := any [
  all [char '.', group 1 (lits ["GET", "POST", "PUT", "DELETE"]), char '('],
  all [lit ".method(", blanks, char '"', group 1 word, char '"']]

def uriCreate : String := "URI.create("

def writtenValue : Pattern :=
  all [lit "writeValueAsString(", blanks, group 1 plainName, blanks, char ')']

def readValue : Pattern := all [
  lit "readValue(", many1 (noneOf ",;"), char ',', blanks, group 1 className, lit ".class", blanks,
  char ')']

def classLiteral : Pattern := all [textStart, group 1 className, lit ".class", textEnd]

def typeReference : Pattern := all [
  lit "ParameterizedTypeReference", blanks, char '<', group 1 (many1 inLine), char '>', blanks,
  char '(', blanks, char ')']

def httpEntity : Pattern := all [
  textStart, lit "new", blanks1, lit "HttpEntity", blanks, char '<', many (noneOf ">"), char '>',
  blanks, char '(']

def newObject : Pattern := all [
  textStart, lit "new", blanks1, group 1 qualified, blanks,
  opt (all [char '<', many (noneOf ">"), char '>']), blanks, char '(']

/-- Words that stand before a parenthesis or a name without declaring a method. -/
def notMethods : List String :=
  ["if", "for", "while", "switch", "catch", "synchronized", "return", "new", "else", "throw"]

structure Method where
  marks : List Char
  returnType : List Char
  start : Nat
  params : Span
  routine : Option Routine

def isTestMark (marks : List Char) : Bool :=
  ["@Test", "@ParameterizedTest", "@RepeatedTest"].any (Text.contains · marks)

def bodyMarkAfter? (s : Source) (start : Nat) : Option Nat :=
  ((s.bare start s.skeleton.size).findIdx? fun b =>
    b == Byte.openBrace || b == Byte.semicolon || b == Byte.equals).map (· + start)

def method? (s : Source) (m : Match) : Option Method := do
  let ret ← m.part? 2
  let name := m.string 3
  if notMethods.contains name || notMethods.contains ret.string then none
  else
    let close ← s.closing? (m.stop - 1)
    let decl := Method.mk (m.text 1) ret.text m.start ⟨m.stop, close⟩
    let next ← bodyMarkAfter? s (close + 1)
    let b ← s.skeleton[next]?
    if b == Byte.openBrace then
      let between := trim (s.slice (close + 1) next)
      if !between.isEmpty && !startsWith "throws" between then none
      else
        let stop ← s.closing? next
        some (decl (some { name, span := ⟨ret.start, stop + 1⟩, isTest := isTestMark (m.text 1) }))
    else if b == Byte.semicolon then some (decl none)
    else none

def methods (s : Source) : List Method := (s.matchesOf methodHead).filterMap (method? s)

def routines (s : Source) : List Routine := (methods s).filterMap (·.routine)

def statementStart (s : Source) (offset : Nat) : Nat :=
  let back := ((s.bare 0 offset).reverse).takeWhile fun b =>
    b != Byte.semicolon && b != Byte.openBrace && b != Byte.closeBrace
  offset - back.length

def statementContent (s : Source) (offset : Nat) : Nat :=
  s.contentStart ⟨statementStart s offset, s.code.size⟩

/-- The offset of the semicolon, or of the bracket around, that ends a statement. -/
def statementEndFrom : List UInt8 → (offset : Nat) → (depth : Int) → Nat
  | [], offset, _ => offset
  | b :: rest, offset, depth =>
    if b == Byte.semicolon && depth == 0 then offset
    else
      let depth := depth + Byte.depthStep b
      if depth < 0 then offset else statementEndFrom rest (offset + 1) depth

def statementEnd (s : Source) (offset : Nat) : Nat :=
  statementEndFrom (s.bare offset s.skeleton.size) offset 0

/-- The payload in a variable, by its constructor or its declared type, in the scope or else in the
whole source. -/
def variablePayload? (s : Source) (name : List Char) (scope : Span) : Option PayloadSource :=
  let made := all [
    edge, lit "var", blanks1, chars name, blanks, char '=', blanks, lit "new", blanks1,
    group 1 qualified]
  let declared := all [
    edge,
    group 1 (all [
      between 'A' 'Z', many (wordOr "."), opt (all [char '<', many (noneOf ";=()\x7b\x7d"), char '>']),
      many (lit "[]")]),
    blanks1, chars name, blanks, oneOf "=;,)"]
  [made, declared].findSome? fun p => [scope, s.wholeSpan].findSome? fun region =>
    ((p.find? (s.spanText region)).bind (·.part? 1)).map fun ty =>
      s.typedAt (typeExpr ty.text) (region.start + ty.start)

def pairs : List Span → List (Span × Span)
  | a :: b :: rest => (a, b) :: pairs rest
  | _ => []

def entryShape (key : String) (value : List Char) (origin : Origin) : Shape :=
  let shape := Shape.plain key .unknown origin
  match Literal.quoted? value with
  | some text => { shape with kind := .string, enumValues := [String.ofList text] }
  | none =>
    if isInteger64 value then { shape with kind := .integer }
    else { shape with confidence := .inferred }

def mapPayload? (s : Source) (opening : Nat) : Option PayloadSource := do
  let close ← s.closing? opening
  let origin := s.originAt opening
  let shape := (pairs (s.pieces (opening + 1) close Byte.comma)).foldl (fun (shape : Shape) p =>
    match Literal.quoted? (s.spanText p.1) with
    | none => { shape with confidence := .inferred }
    | some key =>
      let entry := entryShape (String.ofList key) (trim (s.spanText p.2)) origin
      { shape with children := shape.children ++ [entry] }) (Shape.plain "" .object origin)
  some (.literal shape)

def mapOf : String := "Map.of"

def valuePayload? (s : Source) (span scope : Span) : Option PayloadSource :=
  let text := trim (s.spanText span)
  let offset := s.contentStart span
  if startsWith (mapOf ++ "(") text then mapPayload? s (offset + mapOf.utf8ByteSize)
  else
    match newObject.find? text with
    | some m => some (s.typedAt (typeExpr (m.text 1)) offset)
    | none => if identifier.isIn text then variablePayload? s text scope else none

def assignedValue? (s : Source) (name : List Char) (scope : Span) : Option (List Char) :=
  let p := all [
    edge, chars name, blanks, char '=', blanks, group 1 (many1 (noneOf ";")), char ';']
  [scope, s.wholeSpan].findSome? fun region => (p.find? (s.spanText region)).map fun m => trim (m.text 1)

/-- The sum with the names of string constants replaced by their values. -/
def inlined (s : Source) (scope : Span) (text : List Char) : List Char :=
  let parts := (split '+' text).map fun part =>
    let part := trim part
    if identifier.isIn part then
      ((assignedValue? s part scope).filter fun v => (Literal.quoted? v).isSome).getD part
    else part
  List.intercalate " + ".toList parts

def path? (s : Source) (span scope : Span) : Option String :=
  let text := trim (s.spanText span)
  let found := match dropStart? uriCreate text with
    | some rest => (dropEnd? ")" rest).bind Literal.pathTemplate?
    | none =>
      if identifier.isIn text then (assignedValue? s text scope).bind Literal.pathTemplate?
      else
        match Literal.pathTemplate? text with
        | some path => some path
        | none => Literal.pathTemplate? (inlined s scope text)
  found.map String.ofList

def classPayload? (s : Source) (span : Span) : Option PayloadSource :=
  let text := trim (s.spanText span)
  let m := match classLiteral.find? text with
    | some m => some m
    | none => typeReference.find? text
  m.map fun m => s.typedAt (typeExpr (m.text 1)) span.start

def entityPayload? (s : Source) (span scope : Span) : Option PayloadSource :=
  let text := trim (s.spanText span)
  match httpEntity.find? text with
  | some m => do
    let opening := s.contentStart span + m.stop - 1
    let close ← s.closing? opening
    let value ← (s.pieces (opening + 1) close Byte.comma).head?
    valuePayload? s value scope
  | none => if text == "null".toList then none else valuePayload? s span scope

def pathOf (args : List Char) : List Char := ((mappingPath.find? args).map (·.text 1)).getD []

def ownerAt? (regions : List TypeRegion) (offset : Nat) : Option TypeRegion :=
  match regions.filter fun r => r.opening < offset && offset < r.close with
  | [] => none
  | r :: rs =>
    let size := fun (r : TypeRegion) => r.close - r.opening
    some (rs.foldl (fun best x => if size x < size best then x else best) r)

def ownerPath (r : TypeRegion) : List Char :=
  let found := (mark.findAll r.marks).find? fun m =>
    m.string 1 == "RequestMapping" || m.string 1 == "FeignClient"
  match found with
  | none => []
  | some m =>
    if m.string 1 == "FeignClient" then ((clientPath.find? (m.text 2)).map (·.text 1)).getD []
    else pathOf (m.text 2)

/-- The payload that a method returns: its declared type, or else the first successful body it
builds. -/
def returned? (s : Source) (d : Method) : Option PayloadSource :=
  match typeExpr d.returnType with
  | .unknown => do
    let r ← d.routine
    (entityBody.findAll (s.spanText r.span)).findSome? fun m => do
      let opening := r.span.start + m.stop - 1
      let close ← s.closing? opening
      if nonSuccess.isIn (s.slice (statementStart s opening) (statementEnd s opening)) then none
      else
        let value ← (s.pieces (opening + 1) close Byte.comma).head?
        valuePayload? s value r.span
  | ty =>
    let place := (Text.find? d.returnType (s.slice d.start s.code.size)).getD 0
    some (s.typedAt ty (d.start + place))

/-- The boundary that a mapped method is: a handler, or a call if its type is a client. -/
def mapped? (s : Source) (regions : List TypeRegion) (d : Method) : Option Observation := do
  let m ← mapping.find? d.marks
  let owner := ownerAt? regions d.start
  let isClient := owner.any fun r => Text.contains "@FeignClient" r.marks
  let method :=
    if m.string 1 == "Request" then (requestMethod.find? (m.text 2)).map (·.text 1)
    else some (m.text 1)
  let o := Observation.at (if isClient then .client else .server) (s.place d.start)
    ⟨d.start, d.params.stop + 1⟩
  some { o with
    method := method.map fun t => String.ofList (asciiUpper t)
    path := some (String.ofList (Route.below ((owner.map ownerPath).getD []) (pathOf (m.text 2))))
    routine := d.routine.map (·.span)
    request := ((requestBody.find? (s.spanText d.params)).bind (·.part? 1)).map fun ty =>
      s.typedAt (typeExpr ty.text) (d.params.start + ty.start)
    response := returned? s d }

/-- What a template call sends: the method, the body argument and the argument for the response. -/
def templateParts (s : Source) (call : String) (args : List Span) :
    List Char × Option Span × Option Span :=
  match call with
  | "getForObject" | "getForEntity" => ("GET".toList, none, args[1]?)
  | "postForObject" | "postForEntity" => ("POST".toList, args[1]?, args[2]?)
  | "patchForObject" => ("PATCH".toList, args[1]?, args[2]?)
  | "put" => ("PUT".toList, args[1]?, none)
  | "delete" => ("DELETE".toList, none, none)
  | _ =>
    let method := (args[1]?).bind fun a => dropStart? "HttpMethod." (trim (s.spanText a))
    (method.getD [], args[2]?, args[3]?)

def templateRequest? (s : Source) (rs : List Routine) (m : Match) : Option Observation := do
  let call := m.string 2
  if ["put", "delete", "exchange"].contains call && !templateReceiver.isIn (bare (m.text 1)) then none
  else
    let close ← s.closing? (m.stop - 1)
    let args := s.pieces m.stop close Byte.comma
    let url ← args.head?
    let scope := s.routineAt rs m.start
    let (method, body, response) := templateParts s call args
    let o := Observation.at .client (s.place m.start) ⟨statementContent s m.start, close + 1⟩
    some { o with
      path := path? s url scope
      method := if method.isEmpty then none else some (String.ofList method)
      request := body.bind (entityPayload? s · scope)
      response := response.bind (classPayload? s) }

def chainedRequest? (s : Source) (rs : List Routine) (m : Match) : Option Observation := do
  let close ← s.closing? (m.stop - 1)
  let start := statementContent s m.start
  let stop := statementEnd s m.start
  let scope := s.routineAt rs m.start
  let chain := s.slice close stop
  some { Observation.at .client (s.place start) ⟨start, stop⟩ with
    method := some (String.ofList (asciiUpper (m.text 1)))
    path := (s.pieces m.stop close Byte.comma).head?.bind (path? s · scope)
    request := (bodyValue.find? chain).bind fun b =>
      let opening := close + b.stop - 1
      (s.closing? opening).bind fun bodyClose => valuePayload? s ⟨opening + 1, bodyClose⟩ scope
    response := (bodyTo.find? chain).bind fun b => (b.part? 2).map fun ty =>
      let item := typeExpr ty.text
      let many := ["bodyToFlux", "toEntityList"].contains (b.string 1)
      s.typedAt (if many then .array item else item) (close + ty.start) }

def builtRequestAt (s : Source) (rs : List Routine) (m : Match) : Observation :=
  let start := statementContent s m.start
  let stop := statementEnd s m.start
  let scope := s.routineAt rs m.start
  let statement := s.slice start stop
  let after := max scope.start (min stop scope.stop)
  { Observation.at .client (s.place start) ⟨start, stop⟩ with
    method := some (((builderMethod.find? statement).map fun b =>
      String.ofList (asciiUpper (b.text 1))).getD "GET")
    path := ((lit uriCreate).find? statement).bind fun u =>
      let opening := start + u.stop - 1
      (s.closing? opening).bind fun close => path? s ⟨opening + 1, close⟩ scope
    request := (writtenValue.find? (s.spanText scope)).bind fun w => variablePayload? s (w.text 1) scope
    response := ((readValue.find? (s.slice after scope.stop)).bind (·.part? 1)).map fun ty =>
      s.typedAt (typeExpr ty.text) (after + ty.start) }

def observations (s : Source) (rs : List Routine) : List Observation :=
  (methods s).filterMap (mapped? s (typeRegions s)) ++
    (s.matchesOf templateCall).filterMap (templateRequest? s rs) ++
    (s.matchesOf chainedCall).filterMap (chainedRequest? s rs) ++
    (s.matchesOf builtRequest).map (builtRequestAt s rs)

end Concord.Java
