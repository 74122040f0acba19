import Concord.Boundary.Attach
import Concord.Declaration.TypeScript
import Concord.Literal.Template
import Concord.Number.Natural
import Concord.Route

/-! Requests through `fetch` and through client objects, and routes of routers and of decorated
controllers. -/
namespace Concord.TypeScript

open Text Pattern

def function : Pattern := all [
  edge, lit "function", edge, blanks, opt (char '*'), blanks, opt (group 1 dollarName), blanks,
  opt (all [char '<', many (noneOf ">("), char '>']), blanks, char '(']

def method : Pattern := all [
  lineStart, gap,
  many (all [
    lits ["public", "private", "protected", "static", "async", "override", "readonly", "get", "set"],
    blanks1]),
  group 1 dollarName, blanks, opt (all [char '<', many (noneOf ">("), char '>']), blanks, char '(']

def arrowBody : Pattern := all [lit "=>", blanks, char '{']

def binder : Pattern := lits ["const", "let", "var"]

def arrowName : Pattern := any [
  all [binder, blanks1, group 1 dollarName],
  all [group 2 dollarName, blanks, oneOf ":=", blanks, opt (all [lit "async", edge])]]

def testCall : Pattern := all [
  edge, lits ["it", "test", "describe"], opt (all [char '.', word]), blanks, char '(', blanks,
  oneOf "'\"`"]

def methodTail : Pattern := all [textStart, blanks, opt (all [char ':', many (noneOf ";=")]), textEnd]

def typeName (generic : Pattern) : Pattern := all [
  letterOr "_$", many (wordOr "$."), opt (all [char '<', generic, char '>']), many (lit "[]")]

def returnType : Pattern := all [
  char ')', blanks, char ':', blanks, group 1 (typeName (many1 inLine)), blanks,
  opt (all [lit "=>", blanks]), textEnd]

def fetch : Pattern := all [edge, lit "fetch", blanks, char '(']

def verb : Pattern := lits ["get", "post", "put", "patch", "delete"]

def clientCall : Pattern := all [
  edge, group 1 (all [dollarName, many (all [char '.', dollarName])]), blanks, char '.', blanks,
  group 2 verb, blanks, opt (all [char '<', group 3 (many (noneOf ">()")), char '>']), blanks,
  char '(']

def clientReceiver : Pattern :=
  all [litsAnyCase ["axios", "http", "client", "api", "request", "instance"], textEnd]

def routeCall : Pattern := all [
  edge,
  group 1 (any [
    lit "app", lit "server", all [lit "route", opt (char 's')], lit "router",
    all [dollarName, lit "Router"]]),
  blanks, char '.', blanks, group 2 verb, blanks, char '(']

def assignedTo : Pattern := all [
  binder, blanks1, group 1 (any [all [char '{', many (noneOf "\x7d"), char '}'], dollarName]), blanks,
  opt (all [char ':', blanks, group 2 (few1 (noneOf "="))]), blanks, char '=', blanks,
  opt (all [lit "await", blanks1]), textEnd]

def cast : Pattern := all [
  textStart, few1 anyChar, blanks1, lits ["as", "satisfies"], blanks1,
  group 1 (typeName (many1 inLine)), textEnd]

def newInstance : Pattern := all [
  textStart, lit "new", blanks1, group 1 (all [letterOr "_$", many (wordOr "$.")]), blanks, char '(']

def requestBody : Pattern := all [lit "req", opt (lit "uest"), lit ".body"]

def bodyCast : Pattern := all [
  edge, requestBody, blanks1, lit "as", blanks1, group 1 (typeName (many (noneOf ";\n")))]

def bodyTyped : Pattern := all [
  binder, blanks1, dollarName, blanks, char ':', blanks, group 1 (few1 (noneOf "=")), blanks,
  char '=', blanks, requestBody, edge]

def bodyTaken : Pattern := all [
  binder, blanks, char '{', group 1 (many (noneOf "\x7d")), char '}', blanks,
  opt (all [char ':', blanks, group 2 (few1 (noneOf "="))]), blanks, char '=', blanks, requestBody,
  edge]

def requestGeneric : Pattern := all [
  edge, lit "req", many wordChar, blanks, char ':', blanks, lit "Request", blanks, char '<', blanks,
  many (noneOf ",>"), char ',', blanks, many (noneOf ",>"), char ',', blanks,
  group 1 (all [letterOr "_$", many (wordOr "$."), many (lit "[]")])]

def responseGeneric : Pattern := all [
  edge, lit "res", many wordChar, blanks, char ':', blanks, lit "Response", blanks, char '<', blanks,
  group 1 (typeName (many (noneOf ">"))), blanks, char '>']

def responseCall : Pattern := all [
  edge, lit "res",
  opt (all [
    blanks, char '.', blanks, lit "status(", blanks, group 1 (times 3 digit), blanks, char ')']),
  blanks, char '.', blanks, lits ["json", "send"], blanks, char '(']

def quotedArgument (n : Nat) : Pattern := all [
  blanks, opt (all [oneOf "'\"", group n (many (noneOf "'\"")), oneOf "'\""]), blanks, char ')']

def controllerMark : Pattern := all [lit "@Controller(", quotedArgument 1]

def routeMark : Pattern := all [
  char '@', group 1 (lits ["Get", "Post", "Put", "Patch", "Delete"]), char '(', quotedArgument 2]

def bodyMark : Pattern := all [
  lit "@Body(", blanks, char ')', blanks, opt (all [lit "readonly", blanks1]), dollarName, blanks,
  char ':', blanks, group 1 (typeName (many (noneOf ">")))]

def notMethods : List String := [
  "if", "for", "while", "switch", "catch", "return", "function", "await", "new", "typeof", "super",
  "else", "do", "with", "yield", "delete", "void", "in", "of", "require", "import", "export", "throw"]

/-- The body of a function whose parameters open at `paren`, if at most a return type stands between
the two. -/
def bodyAfter? (s : Source) (paren : Nat) : Option Span := do
  let close ← s.closing? paren
  let brace ← s.findBare? (close + 1) Byte.openBrace
  if !methodTail.isIn (s.slice (close + 1) brace) then none
  else
    let stop ← s.closing? brace
    some ⟨brace, stop + 1⟩

def anonymous : List Char := "<anonymous>".toList

/-- The arrow function whose body a match opens. A call of a test function on its line, or on the line
before if the arrow goes on from there, makes it a test. -/
def arrow? (s : Source) (m : Match) : Option Routine := do
  let close ← s.closing? (m.stop - 1)
  let line := s.lineOf m.start
  let before := s.slice (s.lineStart line) m.start
  let goesOn := (trimStart before).head?.all fun c => c == '(' || c == 'a'
  let regionStart := s.lineStart (if 1 < line && goesOn then line - 1 else line)
  let isTest := testCall.isIn (s.slice regionStart m.start)
  let name :=
    if isTest then "test".toList
    else ((arrowName.find? before).bind fun n => (n.text? 1).or (n.text? 2)).getD anonymous
  some { name := String.ofList name, span := ⟨m.stop - 1, close + 1⟩, isTest }

def routines (s : Source) : List Routine :=
  let plain := fun (name : List Char) (m : Match) => (bodyAfter? s (m.stop - 1)).map fun span =>
    ({ name := String.ofList name, span, isTest := false } : Routine)
  let functions := (s.matchesOf function).filterMap fun m => plain ((m.text? 1).getD anonymous) m
  let methods := (s.matchesOf method).filterMap fun m =>
    if notMethods.contains (m.string 1) then none else plain (m.text 1) m
  let arrows := (s.matchesOf arrowBody).filterMap (arrow? s)
  Routine.dropSameSpans ((functions ++ methods ++ arrows).mergeSort fun a b =>
    a.span.start < b.span.start || a.span.start == b.span.start && a.span.stop ≤ b.span.stop)

/-- The line on which the routine around an offset opens, up to its body. -/
def header? (s : Source) (rs : List Routine) (offset : Nat) : Option (List Char) :=
  (Routine.at? rs offset).map fun r => s.slice (s.lineStart (s.lineOf r.span.start)) r.span.start

def typedPart? (region : Nat) (m : Match) (n : Nat) : Option FoundPayload :=
  (m.part? n).map fun ty => .typed (typeExpr ty.text) (region + ty.start)

/-- The payload in a variable: its declared type or the literal it holds. -/
def variablePayload? (s : Source) (name : List Char) (scope : Span) : Option FoundPayload :=
  let typed := all [
    any [all [edge, binder, blanks1], all [oneOf "(,", blanks]], chars name, blanks, opt (char '?'),
    blanks, char ':', blanks, group 1 (typeName (many (noneOf "=;\x7b)")))]
  let written := all [binder, blanks1, chars name, blanks, char '=', blanks, char '{']
  let region := s.spanText scope
  match typed.find? region with
  | some m => typedPart? scope.start m 1
  | none => (written.find? region).map fun m => .written (scope.start + m.stop - 1)

def stringify : String := "JSON.stringify"

/-- The payload that an expression gives; `fuel` bounds the calls around the value. -/
def payloadWithin? (s : Source) (scope : Span) : (fuel : Nat) → Span → Option FoundPayload
  | 0, _ => none
  | fuel + 1, span =>
    let text := trim (s.spanText span)
    let offset := s.contentStart span
    if text.head? == some '{' then some (.written offset)
    else if startsWith (stringify ++ "(") text then do
      let opening := offset + stringify.utf8ByteSize
      let close ← s.closing? opening
      let value ← (s.pieces (opening + 1) close Byte.comma).head?
      payloadWithin? s scope fuel value
    else
      match cast.find? text with
      | some m => some (.typed (typeExpr (m.text 1)) offset)
      | none =>
        match newInstance.find? text with
        | some m => some (.typed (.named (m.string 1) []) offset)
        | none =>
          if identifierPath.isIn text && !text.contains '.' then variablePayload? s text scope
          else none

def valuePayload? (s : Source) (span scope : Span) : Option FoundPayload :=
  payloadWithin? s scope (s.text.size + 1) span

def readPayload? (s : Source) (name : List Char) (start : Nat) (scope : Span) :
    Option FoundPayload :=
  let access := all [
    edge, chars name, opt (char '?'), char '.', group 1 dollarName, edge,
    opt (group 2 (all [blanks, char '(']))]
  let found := access.findAll (s.slice (min start scope.stop) scope.stop)
  let keys := (found.filter fun m => (m.part? 2).isNone).map (·.string 1)
  if keys.isEmpty then none else some (.keyed keys.eraseDups start)

/-- The path of a URL argument; a name is followed to its initial value, in the scope and then in the
whole source. -/
def path? (s : Source) (span scope : Span) : Option String :=
  let text := trim (s.spanText span)
  let found := match Literal.pathTemplate? text with
    | some path => some path
    | none =>
      if identifierPath.isIn text then
        let initial := all [
          binder, blanks1, chars text, blanks, opt (all [char ':', blanks, word]), blanks, char '=',
          blanks, group 1 (many1 (noneOf ";\n"))]
        [scope, s.wholeSpan].findSome? fun region =>
          (initial.find? (s.spanText region)).bind fun m => Literal.pathTemplate? (m.text 1)
      else none
  found.map String.ofList

/-- A client boundary: a call from the start of its line up to its closing parenthesis. -/
def clientAt (s : Source) (m : Match) (close : Nat) : FoundBoundary where
  side := .client
  method := none
  path := none
  offset := m.start
  span := ⟨s.lineStart (s.lineOf m.start), close + 1⟩
  routine := none
  request := none
  response := none

def target? (s : Source) (call : Nat) : Option (List Char) :=
  (assignedTo.find? (s.slice (s.lineStart (s.lineOf call)) call)).map (·.text 1)

def routineReturn? (s : Source) (rs : List Routine) (offset : Nat) : Option FoundPayload := do
  let header ← header? s rs offset
  let m ← returnType.find? (trimEnd header)
  some (.typed (typeExpr (m.text 1)) offset)

def fetchResponse? (s : Source) (rs : List Routine) (call close : Nat) (scope : Span) :
    Option FoundPayload := do
  let name ← target? s call
  if name.head? == some '{' then none
  else
    let start := min close scope.stop
    let region := s.slice start scope.stop
    let taken := all [
      binder, blanks1, group 1 dollarName, blanks,
      opt (all [char ':', blanks, group 2 (few1 (noneOf "="))]), blanks, char '=', blanks,
      opt (all [char '(', blanks]), opt (all [lit "await", blanks1]), chars name, lit ".json", blanks,
      opt (all [char '<', group 3 (many1 (noneOf ">")), char '>']), char '(', blanks, char ')', blanks,
      opt (char ')'), blanks, opt (all [lit "as", blanks1, group 4 (many1 (noneOf ";\n"))])]
    let returned := all [
      lit "return", blanks1, opt (all [lit "await", blanks1]), chars name, lit ".json(", blanks,
      char ')', opt (all [blanks, lit "as", blanks1, group 1 (many1 (noneOf ";\n"))])]
    match taken.find? region with
    | some m =>
      match [2, 3, 4].findSome? (typedPart? start m) with
      | some payload => some payload
      | none =>
        let data ← m.part? 1
        readPayload? s data.text (start + data.stop) scope
    | none =>
      let m ← returned.find? region
      match typedPart? start m 1 with
      | some payload => some payload
      | none => routineReturn? s rs call

def withOption (s : Source) (scope : Span) (f : FoundBoundary) (entry : Span) : FoundBoundary :=
  let colon := ((s.bare entry.start entry.stop).findIdx? (· == Byte.colon)).map (· + entry.start)
  let key := String.ofList (trim (s.slice entry.start (colon.getD entry.stop)))
  let value : Span := ⟨(colon.map (· + 1)).getD entry.start, entry.stop⟩
  if key == "method" && colon.isSome then
    match Literal.quoted? (s.spanText value) with
    | some method => { f with method := some (String.ofList (asciiUpper method)) }
    | none => f
  else if key == "body" then { f with request := valuePayload? s value scope }
  else f

def optionEntries (s : Source) (options : Option Span) : List Span :=
  match options with
  | none => []
  | some span =>
    if s.code[span.start]? == some Byte.openBrace then
      match s.closing? span.start with
      | some close => s.pieces (span.start + 1) close Byte.comma
      | none => []
    else []

def fetchRequest? (s : Source) (rs : List Routine) (m : Match) : Option FoundBoundary := do
  let close ← s.closing? (m.stop - 1)
  let args := s.pieces m.stop close Byte.comma
  let url ← args.head?
  let scope := s.scopeAt rs m.start
  let f : FoundBoundary := { clientAt s m close with
    path := path? s url scope
    method := some "GET" }
  let f := (optionEntries s args[1]?).foldl (withOption s scope) f
  some { f with response := fetchResponse? s rs m.start (close + 1) scope }

/-- The payload that is read from the response of a client object, which holds it as `data`. -/
def clientResponse? (s : Source) (rs : List Routine) (call close : Nat) (scope : Span) :
    Option FoundPayload := do
  let name ← target? s call
  match (dropStart? "\x7b" name).bind (dropEnd? "\x7d") with
  | some inner =>
    let entry ← ((split ',' inner).map trim).find? (startsWith "data")
    let bound := ((cutWhere? (· == ':') entry).map fun p => trim p.2).getD "data".toList
    readPayload? s bound close scope
  | none =>
    let returned := all [lit "return", blanks1, chars name, lit ".data", edge]
    let declared :=
      if returned.isIn (s.slice (min close scope.stop) scope.stop) then routineReturn? s rs call
      else none
    match declared with
    | some payload => some payload
    | none => readPayload? s (name ++ ".data".toList) close scope

def isClient (receiver : List Char) : Bool :=
  let last := lastPiece (· == '.') receiver
  clientReceiver.isIn last && !routeCall.isIn (last ++ ".get(".toList)

def clientRequest? (s : Source) (rs : List Routine) (m : Match) : Option FoundBoundary := do
  if !isClient (m.text 1) then none
  else
    let method := String.ofList (asciiUpper (m.text 2))
    let close ← s.closing? (m.stop - 1)
    let args := s.pieces m.stop close Byte.comma
    let url ← args.head?
    let scope := s.scopeAt rs m.start
    some { clientAt s m close with
      path := path? s url scope
      method := some method
      request :=
        if ["POST", "PUT", "PATCH"].contains method then (args[1]?).bind (valuePayload? s · scope)
        else none
      response := match typedPart? 0 m 3 with
        | some payload => some payload
        | none => clientResponse? s rs m.start (close + 1) scope }

def takenKeys (text : List Char) : List String :=
  (split ',' text).filterMap fun part =>
    let key := trim (part.takeWhile fun c => c != ':' && c != '=')
    if key.isEmpty || startsWith "..." key then none else some (String.ofList key)

def bodyPayload? (s : Source) (region : Span) : Option FoundPayload :=
  let code := s.spanText region
  let declared := [requestGeneric, bodyCast, bodyTyped].findSome? fun p =>
    (p.find? code).bind (typedPart? region.start · 1)
  match declared with
  | some payload => some payload
  | none =>
    match bodyTaken.find? code with
    | some m =>
      match typedPart? region.start m 2 with
      | some payload => some payload
      | none => (m.part? 1).map fun names => .keyed (takenKeys names.text) (region.start + names.start)
    | none => do
      let m ← (lit "req.body").find? code
      readPayload? s "req.body".toList (region.start + m.start) region

def sentPayload? (s : Source) (region : Span) : Option FoundPayload :=
  let code := s.spanText region
  match (responseGeneric.find? code).bind (typedPart? region.start · 1) with
  | some payload => some payload
  | none => (responseCall.findAll code).findSome? fun m => do
      if ((m.text? 1).bind (readNat? 65535)).all Status.isSuccess then
        let opening := region.start + m.stop - 1
        let close ← s.closing? opening
        let value ← (s.pieces (opening + 1) close Byte.comma).head?
        valuePayload? s value region
      else none

def handlerOf? (s : Source) (rs : List Routine) (arg : Span) : Option Routine :=
  let text := trim (s.spanText arg)
  if Text.contains "=>" text || startsWith "function" text || startsWith "async" text then
    rs.find? fun r => arg.contains r.span.start
  else
    let name := String.ofList (lastPiece (· == '.') text)
    rs.find? (·.name == name)

def route? (s : Source) (rs : List Routine) (m : Match) : Option FoundBoundary := do
  let close ← s.closing? (m.stop - 1)
  let args := s.pieces m.stop close Byte.comma
  if args.length < 2 then none
  else
    let pathText := s.spanText (args.headD default)
    let path ← match Literal.quoted? pathText with
      | some path => some path
      | none => Literal.pathTemplate? pathText
    let last := args.getLastD default
    let handler := handlerOf? s rs last
    let region := match handler with
      | some r => if last.start ≤ r.span.start then ⟨last.start, r.span.stop⟩ else s.scopeOf r
      | none => ⟨m.start, close + 1⟩
    some {
      side := .server
      method := some (String.ofList (asciiUpper (m.text 2)))
      path := some (String.ofList path)
      offset := m.start
      span := ⟨m.start, close + 1⟩
      routine := handler.map (·.span)
      request := bodyPayload? s region
      response := sentPayload? s region }

def decoratedRoute? (s : Source) (rs : List Routine) (controllers : List Match) (m : Match) :
    Option FoundBoundary := do
  let base := ((controllers.reverse.find? (·.start < m.start)).map (·.text 1)).getD []
  let handler ← rs.find? (m.stop < ·.span.start)
  let header := s.slice m.stop handler.span.start
  some {
    side := .server
    method := some (String.ofList (asciiUpper (m.text 1)))
    path := some (String.ofList (Route.joined base (m.text 2)))
    offset := m.start
    span := ⟨m.start, handler.span.start⟩
    routine := some handler.span
    request := (bodyMark.find? header).bind (typedPart? m.stop · 1)
    response := (returnType.find? (trimEnd header)).bind (typedPart? m.stop · 1) }

def boundaries (s : Source) (rs : List Routine) : List FoundBoundary :=
  (s.matchesOf fetch).filterMap (fetchRequest? s rs) ++
    (s.matchesOf clientCall).filterMap (clientRequest? s rs) ++
    (s.matchesOf routeCall).filterMap (route? s rs) ++
    (s.matchesOf routeMark).filterMap (decoratedRoute? s rs (s.matchesOf controllerMark))

def observations (s : Source) (rs : List Routine) : Except BadCut (List Observation) :=
  (boundaries s rs).mapM (·.located s)

end Concord.TypeScript
