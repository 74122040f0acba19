import Concord.Boundary.Attach
import Concord.Declaration.Python
import Concord.Literal.Template
import Concord.Route
import Concord.Number.Natural

/-! Requests through the common clients, and routes declared by decorators, with JSON bodies. -/
namespace Concord.Python

open Text Pattern

def capitalName : Pattern := all [between 'A' 'Z', many wordChar]

def qualified : Pattern := all [letterOr "_", many (wordOr ".")]

def function : Pattern := all [
  lineStart, gap, group 1 (all [opt (all [lit "async", gap1]), lit "def"]), blanks1,
  group 2 plainName, blanks, char '(']

def routeMark : Pattern := all [
  lineStart, gap, char '@', group 1 qualified, char '.',
  group 2 (lits ["get", "post", "put", "patch", "delete", "route", "api_route"]), blanks, char '(']

def clientCall : Pattern := all [
  edge, group 1 qualified, char '.',
  group 2 (lits ["get", "post", "put", "patch", "delete", "request"]), blanks, char '(']

def clientReceiver : Pattern := any [
  all [textStart, litsAnyCase ["requests", "httpx", "http", "api"], textEnd],
  all [litsAnyCase ["session", "client"], textEnd]]

def assignedTo : Pattern := all [
  group 1 plainName, blanks, opt (all [char ':', blanks, many1 (wordOr "[]., |")]), char '=', blanks,
  opt (all [lit "await", blanks1]), textEnd]

def modelCall : Pattern := all [
  group 1 capitalName, opt (all [char '.', lits ["model_validate", "parse_obj", "from_dict"]]),
  char '(', blanks, opt (lit "**"), blanks]

def wrappedBy : Pattern := all [modelCall, opt (all [lit "await", blanks1]), textEnd]

def dumpCall : Pattern := all [
  textStart,
  any [
    all [
      group 1 plainName, char '.', lits ["model_dump", "dict", "to_dict", "model_dump_json", "json"],
      char '(', many (noneOf ")"), char ')'],
    all [
      lits ["asdict", "jsonable_encoder", "json.dumps"], char '(', blanks, group 2 plainName,
      many (noneOf ")"), char ')']],
  textEnd]

def constructor : Pattern := all [textStart, group 1 capitalName, blanks, char '(']

def responseCall : Pattern :=
  all [textStart, lits ["jsonify", "JSONResponse", "make_response"], blanks, char '(']

def returnWord : Pattern := all [lineStart, gap, lit "return", blanks1]

def requestBody : Pattern :=
  all [lit "request.", any [all [lit "get_json(", many (noneOf ")"), char ')'], lit "json"]]

def frameworkTypes : List String :=
  ["Request", "Response", "BackgroundTasks", "Session", "AsyncSession", "WebSocket",
    "HTTPConnection"]

/-- Calls that mark a parameter as something else than the body. -/
def injected : List String :=
  ["Depends(", "Header(", "Query(", "Path(", "Cookie(", "Security(", "File(", "Form("]

def assignment (name : List Char) : Pattern := all [
  edge, chars name, blanks, opt (all [char ':', many1 (noneOf "=\n")]), char '=', blanks]

def routines (s : Source) : List Routine :=
  (s.matchesOf function).filterMap fun m => (m.part? 1).map fun head =>
    { name := m.string 2
      span := ⟨head.start, s.blockEnd head.start⟩
      isTest := startsWith "test" (m.text 2) }

structure Parameter where
  hint : List Char
  value : Option (List Char)

/-- The parameters of the function whose header starts at `header`, without those that are not
passed by name. -/
def parameters (s : Source) (header : Nat) : List Parameter :=
  let spans := (s.findBare? header Byte.openParen).bind fun opening =>
    (s.closing? opening).map fun close => s.pieces (opening + 1) close Byte.comma
  (spans.getD []).filterMap fun span =>
    let (head, value) := splitDefault (s.spanText span)
    let (name, hint) := (cutWhere? (· == ':') head).getD (head, [])
    let name := trim name
    if name.head? == some '*' || name == "self".toList || name == "cls".toList || name == ['/'] then
      none
    else some ⟨trim hint, value⟩

/-- The type that a function returns, if it is a payload, and the offset of the arrow before it. -/
def returnType? (s : Source) (header : Nat) : Option (TypeExpr × Nat) := do
  let opening ← s.findBare? header Byte.openParen
  let close ← s.closing? opening
  let colon ← headerColon? s (close + 1)
  let (before, after) ← cut? ['-', '>'] (s.slice (close + 1) colon)
  let ty := typeExpr after
  let at_ := close + 1 + byteSize before
  match ty with
  | .named name _ =>
    let b := bare name.toList
    if frameworkTypes.contains (String.ofList b) || endsWith "Response" b then none
    else some (ty, at_)
  | .map => none
  | .unknown => none
  | _ => some (ty, at_)

def lineEndFrom : List UInt8 → (offset : Nat) → (depth : Int) → Nat
  | [], offset, _ => offset
  | b :: rest, offset, depth =>
    if b == Byte.newline && depth ≤ 0 then offset
    else lineEndFrom rest (offset + 1) (depth + Byte.depthStep b)

def statementEnd (s : Source) (start : Nat) : Nat :=
  lineEndFrom (s.bare start s.skeleton.size) start 0

def isStructured : TypeExpr → Bool
  | .named .. => true
  | .array _ => true
  | .optional _ => true
  | _ => false

/-- The payload in a variable: the dictionary assigned to it, its type hint or its constructor. -/
def variablePayload? (s : Source) (name : List Char) (scope : Span) : Option PayloadSource :=
  let region := s.spanText scope
  match (all [assignment name, char '{']).find? region with
  | some m => some (s.writtenAt (scope.start + m.stop - 1))
  | none =>
    let hinted := all [
      edge, chars name, blanks, char ':', blanks,
      group 1 (all [qualified, opt (all [char '[', many (noneOf "]\n"), char ']'])])]
    let built := all [
      edge, chars name, blanks, char '=', blanks, opt (all [lit "await", blanks1]),
      group 1 capitalName,
      opt (all [
        char '.', lits ["model_validate", "parse_obj", "from_dict", "model_validate_json"]]),
      char '(']
    [hinted, built].findSome? fun p => ((p.find? region).bind (·.part? 1)).bind fun ty =>
      let parsed := typeExpr ty.text
      if isStructured parsed then some (s.typedAt parsed (scope.start + ty.start)) else none

/-- The payload that an expression gives. A response call holds its payload as its first argument,
which is shorter, so the length of the text bounds `fuel`. -/
def payloadWithin? (s : Source) (scope : Span) : (fuel : Nat) → Span → Option PayloadSource
  | 0, _ => none
  | fuel + 1, span =>
    let text := trim (s.spanText span)
    let offset := s.contentStart span
    if text.head? == some '{' then some (s.writtenAt offset)
    else
      match responseCall.find? text with
      | some m => do
        let opening := offset + m.stop - 1
        let close ← s.closing? opening
        let first ← (s.pieces (opening + 1) close Byte.comma).head?
        payloadWithin? s scope fuel first
      | none =>
        match dumpCall.find? text with
        | some m => ((m.text? 1).or (m.text? 2)).bind (variablePayload? s · scope)
        | none =>
          match constructor.find? text with
          | some m => some (s.typedAt (typeExpr (m.text 1)) offset)
          | none => if identifier.isIn text then variablePayload? s text scope else none

def valuePayload? (s : Source) (span scope : Span) : Option PayloadSource :=
  payloadWithin? s scope (s.text.size + 1) span

/-- An access to a member of `name`: by key, by a getter or by attribute; a call of a method has a
part 4. -/
def access (name : List Char) : Pattern := all [
  edge, chars name,
  any [
    all [char '[', blanks, oneOf "\"'", group 1 (many1 (wordOr "-")), oneOf "\"'", blanks, char ']'],
    all [lit ".get(", blanks, oneOf "\"'", group 2 (many1 (wordOr "-")), oneOf "\"'"],
    all [char '.', group 3 plainName, edge, opt (group 4 (all [blanks, char '(']))]]]

def readPayload? (s : Source) (name : List Char) (start : Nat) (scope : Span) :
    Option PayloadSource :=
  let start := max scope.start (min start scope.stop)
  let keys := ((access name).findAll (s.slice start scope.stop)).filterMap fun m =>
    if (m.part? 4).isSome then none
    else ((m.text? 1).or ((m.text? 2).or (m.text? 3))).map String.ofList
  s.keysAt start keys

/-- The payload of a decoded body in a variable: the model built from it, or the members read. -/
def dataPayload? (s : Source) (name : List Char) (start : Nat) (scope : Span) :
    Option PayloadSource :=
  let start := max scope.start (min start scope.stop)
  let wrapped := all [modelCall, chars name, blanks, char ')']
  match wrapped.find? (s.slice start scope.stop) with
  | some m => (m.part? 1).map fun p => s.typedAt (typeExpr p.text) (start + p.start)
  | none => readPayload? s name start scope

/-- The path of a URL argument; a variable is followed to its assignment in the scope, then in the
whole source. -/
def path? (s : Source) (span scope : Span) : Option String :=
  let text := trim (s.spanText span)
  let found := match Literal.pathTemplate? text with
    | some path => some path
    | none =>
      if identifier.isIn text then
        [scope, s.wholeSpan].findSome? fun region =>
          ((all [assignment text, group 1 (many1 inLine)]).find? (s.spanText region)).bind fun m =>
            Literal.pathTemplate? (m.text 1)
      else none
  found.map String.ofList

def keyword? (s : Source) (args : List Span) (key : String) : Option Span :=
  args.findSome? fun span =>
    (cutWhere? (· == '=') (s.spanText span)).bind fun (k, _) =>
      if trim k == key.toList then some ⟨span.start + byteSize k + 1, span.stop⟩ else none

def isKeyword (text : List Char) : Bool :=
  match cutWhere? (· == '=') text with
  | some (k, v) => identifier.isIn (trim k) && v.head? != some '='
  | none => false

def routerPath? (s : Source) (receiver : List Char) : Option (List Char) := do
  let made := all [
    edge, chars receiver, blanks, char '=', blanks, opt (all [word, char '.']),
    lits ["APIRouter", "Blueprint"], blanks, char '(']
  let m ← made.find? s.chars
  let opening := m.stop - 1
  let close ← s.closing? opening
  let args := s.pieces (opening + 1) close Byte.comma
  let value ← (keyword? s args "prefix").or (keyword? s args "url_prefix")
  Literal.quoted? (s.spanText value)

def listedMethod (s : Source) (args : List Span) : List Char :=
  let first := (keyword? s args "methods").bind fun span =>
    let t := (trim (s.spanText span)).dropWhile fun c => c == '[' || c == '('
    let t := dropEndWhile (fun c => c == ']' || c == ')') t
    (Literal.typeList ',' t).head?.bind Literal.quoted?
  (first.map asciiUpper).getD ['G', 'E', 'T']

def modelName? : TypeExpr → Option String
  | .named name _ => some name
  | .array (.named name _) => some name
  | _ => none

def parameterPayload? (s : Source) (r : Routine) (p : Parameter) : Option PayloadSource :=
  let isInjected := injected.any fun i => contains i p.hint || p.value.any (contains i)
  if p.hint.isEmpty || isInjected then none
  else
    let ty := typeExpr p.hint
    (modelName? ty).bind fun name =>
      let b := bare name.toList
      if !frameworkTypes.contains (String.ofList b) && b.head?.any isUpper then
        let offset := (Text.find? p.hint (s.spanText r.span)).getD 0
        some (s.typedAt ty (r.span.start + offset))
      else none

def bodyPayload? (s : Source) (r : Routine) : Option PayloadSource := do
  let body ← requestBody.find? (s.spanText r.span)
  let offset := r.span.start + body.start
  let lineStart := s.lineStart (s.lineOf offset)
  let before := s.slice lineStart offset
  match wrappedBy.find? before with
  | some m => (m.part? 1).map fun p => s.typedAt (typeExpr p.text) (lineStart + p.start)
  | none =>
    match assignedTo.find? before with
    | some m => dataPayload? s (m.text 1) offset r.span
    | none => readPayload? s body.whole.text offset r.span

def handlerRequest? (s : Source) (r : Routine) : Option PayloadSource :=
  match (parameters s r.span.start).findSome? (parameterPayload? s r) with
  | some p => some p
  | none => bodyPayload? s r

def returnedPayload? (s : Source) (scope : Span) : Option PayloadSource :=
  (returnWord.findAll (s.spanText scope)).findSome? fun m =>
    let start := scope.start + m.stop
    let parts := s.pieces start (min (statementEnd s start) scope.stop) Byte.comma
    let status := (parts[1]?).bind fun p => readNat? 65535 (trim (s.spanText p))
    if status.any fun c => c < 200 || 300 ≤ c then none
    else parts.head?.bind (valuePayload? s · scope)

def route? (s : Source) (rs : List Routine) (m : Match) : Option Observation := do
  let close ← s.closing? (m.stop - 1)
  let args := s.pieces m.stop close Byte.comma
  let first := args.head?.filter fun a => !(s.spanText a).contains '='
  let pathArg ← first.or ((keyword? s args "path").or (keyword? s args "rule"))
  let written ← Literal.quoted? (s.spanText pathArg)
  let path := Route.below ((routerPath? s (m.text 1)).getD []) written
  let method := match m.string 2 with
    | "route" | "api_route" => listedMethod s args
    | _ => asciiUpper (m.text 2)
  let handler := ((function.find? (s.slice close s.code.size)).bind (·.part? 1)).bind fun head =>
    rs.find? (·.span.start == close + head.start)
  let o : Observation := { Observation.at .server (s.place m.start) ⟨m.start, close + 1⟩ with
    method := some (String.ofList method)
    path := some (String.ofList path) }
  match handler with
  | none => some o
  | some r =>
    let modelled := (keyword? s args "response_model").map fun v =>
      s.typedAt (typeExpr (s.spanText v)) v.start
    let hinted := (returnType? s r.span.start).map fun (ty, at_) => s.typedAt ty at_
    some { o with
      routine := some r.span
      request := handlerRequest? s r
      response := modelled.or (hinted.or (returnedPayload? s r.span)) }

def routineReturn? (s : Source) (rs : List Routine) (offset : Nat) : Option PayloadSource := do
  let r ← Routine.at? rs offset
  let (ty, at_) ← returnType? s r.span.start
  some (s.typedAt ty at_)

/-- The payload that a client reads from the response of the call that ends at `close`. -/
def clientResponse? (s : Source) (rs : List Routine) (lineStart call close : Nat) (scope : Span) :
    Option PayloadSource :=
  let before := s.slice lineStart call
  let target := (assignedTo.find? before).map (·.text 1)
  if startsWith ".json()" (trimStart (s.slice (close + 1) s.code.size)) then
    match wrappedBy.find? before with
    | some m => (m.part? 1).map fun p => s.typedAt (typeExpr p.text) (lineStart + p.start)
    | none =>
      if startsWith "return" (trimStart before) then routineReturn? s rs call
      else target.bind (dataPayload? s · close scope)
  else
    target.bind fun name =>
      let region := s.slice (min close scope.stop) scope.stop
      let decoded := all [chars name, lit ".json(", blanks, char ')']
      match (all [modelCall, decoded]).find? region with
      | some m => (m.part? 1).map fun p => s.typedAt (typeExpr p.text) (close + p.start)
      | none =>
        let assigned := all [
          group 1 plainName, blanks, opt (all [char ':', many1 (noneOf "=\n")]), char '=', blanks,
          decoded]
        match assigned.find? region with
        | some m => dataPayload? s (m.text 1) (close + m.stop) scope
        | none =>
          if (all [edge, lit "return", blanks1, decoded]).isIn region then routineReturn? s rs call
          else none

def request? (s : Source) (rs : List Routine) (m : Match) : Option Observation := do
  let lineStart := s.lineStart (s.lineOf m.start)
  if !clientReceiver.isIn (bare (m.text 1)) ||
      (trimStart (s.slice lineStart m.start)).head? == some '@' then none
  else
    let close ← s.closing? (m.stop - 1)
    let args := s.pieces m.stop close Byte.comma
    let positional := args.filter fun a => !isKeyword (s.spanText a)
    let (method, url) :=
      if m.string 2 == "request" then
        ((positional.head?.bind fun a => Literal.quoted? (s.spanText a)).map asciiUpper,
          positional[1]?)
      else (some (asciiUpper (m.text 2)), positional.head?)
    let url := url.or (keyword? s args "url")
    let scope := s.routineAt rs m.start
    some { Observation.at .client (s.place m.start) ⟨lineStart, close + 1⟩ with
      method := method.map String.ofList
      path := url.bind (path? s · scope)
      request := ((keyword? s args "json").or (keyword? s args "data")).bind (valuePayload? s · scope)
      response := clientResponse? s rs lineStart m.start close scope }

def observations (s : Source) (rs : List Routine) : List Observation :=
  (s.matchesOf routeMark).filterMap (route? s rs) ++ (s.matchesOf clientCall).filterMap (request? s rs)

end Concord.Python
