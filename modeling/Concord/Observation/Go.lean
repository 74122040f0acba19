import Concord.Boundary.Attach
import Concord.Declaration.Go
import Concord.Literal.Template

/-! Requests through the standard client, and routes of the standard multiplexer and of the common
routers, with JSON bodies. -/
namespace Concord.Go

open Text Pattern

def function : Pattern := all [
  edge, lit "func", blanks,
  opt (all [
    char '(', blanks, many wordChar, blanks, opt (char '*'), many1 (wordOr ".[]"), blanks, char ')',
    blanks]),
  opt (group 1 word), blanks, opt (all [char '[', many (noneOf "]"), char ']']), char '(']

def qualified : Pattern := all [letterOr "_", many (wordOr ".")]

def routeCall : Pattern := all [
  edge, group 1 qualified, char '.',
  group 2 (lits [
    "HandleFunc", "Handle", "Get", "Post", "Put", "Patch", "Delete", "GET", "POST", "PUT", "PATCH",
    "DELETE"]),
  blanks, char '(']

def methodsCall : Pattern := all [
  textStart, blanks, char '.', blanks, lit "Methods(", blanks, char '"', group 1 word, char '"']

def clientReceiver : Pattern :=
  all [any [all [textStart, litAnyCase "http"], litAnyCase "client"], textEnd]

def newRequest : Pattern :=
  all [edge, lit "http.NewRequest", opt (group 1 (lit "WithContext")), blanks, char '(']

def clientCall : Pattern := all [
  edge, group 1 qualified, char '.', group 2 (lits ["Get", "Post", "Head", "PostForm"]), blanks,
  char '(']

def handlerWrap : Pattern :=
  all [textStart, lit "http.HandlerFunc(", group 1 (many1 inLine), char ')', textEnd]

def decode : Pattern := any [
  all [lit ".Decode(", blanks, opt (char '&'), group 1 word, blanks, char ')'],
  all [
    char '.', lits ["ShouldBindJSON", "BindJSON", "ShouldBind", "Bind"], char '(', blanks, char '&',
    group 2 word, blanks, char ')'],
  all [
    lit "json.Unmarshal(", blanks, many1 (noneOf ","), char ',', blanks, char '&', group 3 word,
    blanks, char ')']]

def encode : Pattern := any [
  all [lit ".Encode", blanks, char '('],
  all [edge, word, char '.', lits ["JSON", "IndentedJSON"], blanks, char '('],
  all [
    edge, many wordChar, litsAnyCase ["write", "respond", "render"], many wordChar,
    litAnyCase "json", many wordChar, blanks, char '(']]

def bodyReader : Pattern := all [
  textStart, lits ["bytes.NewReader", "bytes.NewBuffer", "strings.NewReader"], char '(', blanks,
  group 1 word, blanks, char ')', textEnd]

def composite : Pattern := all [textStart, opt (char '&'), group 1 qualified, blanks, char '{']

def mapType : Pattern := any [
  all [
    lit "map[string]", blanks,
    any [lit "any", all [lit "interface", blanks, char '{', blanks, char '}']]],
  lit "gin.H", lit "echo.Map", lit "fiber.Map"]

def mapLiteral : Pattern := all [textStart, mapType, blanks, char '{']

def statusArgument : Pattern := all [
  textStart, any [all [lit "http.Status", group 1 word], group 2 Status.codeDigits], textEnd]

def methodConstant : Pattern := all [textStart, lit "http.Method", group 1 word, textEnd]

def identifier : Pattern := all [textStart, plainName, textEnd]

def assignment (name : List Char) : Pattern :=
  all [edge, chars name, blanks, opt (char ':'), char '=', blanks]

/-- The functions of a source by their bodies. A function type in a parameter list shares its body
with the declaration around it. -/
def routines (s : Source) : List Routine :=
  let found := (s.matchesOf function).filterMap fun m => do
    let close ← s.closing? (m.stop - 1)
    let brace ← s.findBare? (close + 1) Byte.openBrace
    if (s.slice (close + 1) brace).any fun c => c == '\n' || c == ';' || c == '=' then none
    else
      let stop ← s.closing? brace
      let name := (m.text? 1).getD "<anonymous>".toList
      some { name := String.ofList name
             span := ⟨brace, stop + 1⟩
             isTest := ["Test", "Benchmark", "Example", "Fuzz"].any (startsWith · name) }
  Routine.dropSameSpans (found.mergeSort fun a b => a.span.start ≤ b.span.start)

def typings (name : List Char) : List Pattern :=
  let pointed := all [opt (char '*'), opt (lit "[]"), qualified]
  [ all [
      edge, lit "var", blanks1, chars name, blanks1,
      group 1 (all [pointed, opt (all [char '[', many1 (wordOr "."), char ']'])])],
    all [
      assignment name, opt (char '&'), group 1 (all [opt (lit "[]"), qualified]), blanks, char '{'],
    all [assignment name, lit "new(", blanks, group 1 qualified, blanks, char ')'],
    all [oneOf "(,", blanks, chars name, blanks1, group 1 pointed] ]

/-- The payload in a variable: the map literal it holds or its declared type. -/
def variablePayload? (s : Source) (name : List Char) (scope : Span) : Option PayloadSource :=
  let region := s.spanText scope
  match (all [assignment name, mapType, blanks, char '{']).find? region with
  | some m => some (s.writtenAt (scope.start + m.stop - 1))
  | none => (typings name).findSome? fun p => ((p.find? region).bind (·.part? 1)).map fun ty =>
      s.typedAt (typeExpr ty.text) (scope.start + ty.start)

def valuePayload? (s : Source) (span scope : Span) : Option PayloadSource :=
  let text := trim (s.spanText span)
  let offset := s.contentStart span
  match mapLiteral.find? text with
  | some m => some (s.writtenAt (offset + m.stop - 1))
  | none =>
    match composite.find? text with
    | some m => some (s.typedAt (typeExpr (m.text 1)) offset)
    | none =>
      let name := text.dropWhile (· == '&')
      if identifier.isIn name then variablePayload? s name scope else none

/-- The path of a URL argument; a variable is followed to its assignment. -/
def path? (s : Source) (span scope : Span) : Option String :=
  let text := trim (s.spanText span)
  let found := match Literal.pathTemplate? text with
    | some path => some path
    | none =>
      if identifier.isIn text then
        ((all [assignment text, group 1 (many1 inLine)]).find? (s.spanText scope)).bind fun m =>
          Literal.pathTemplate? (m.text 1)
      else none
  found.map String.ofList

def method? (text : List Char) : Option String :=
  ((Literal.quoted? text).or ((methodConstant.find? (trim text)).map (·.text 1))).map fun t =>
    String.ofList (asciiUpper t)

def statusOf? (text : List Char) : Option Nat :=
  (statusArgument.find? (trim text)).bind fun m =>
    match m.text? 1 with
    | some name => Status.ofName? name
    | none => Status.ofDigits? (m.text 2)

def decoded? (s : Source) (scope : Span) (start : Nat) : Option PayloadSource := do
  let start := max scope.start (min start scope.stop)
  let m ← decode.find? (s.slice start scope.stop)
  let name ← (m.text? 1).or ((m.text? 2).or (m.text? 3))
  variablePayload? s name scope

def encoded? (s : Source) (scope : Span) : Option PayloadSource :=
  (encode.findAll (s.spanText scope)).findSome? fun m => do
    let opening := scope.start + m.stop - 1
    let close ← s.closing? opening
    let args := s.pieces (opening + 1) close Byte.comma
    let last ← args.getLast?
    if (args.filterMap fun a => statusOf? (s.spanText a)).all Status.isSuccess then
      valuePayload? s last scope
    else none

def isClient (receiver : List Char) : Bool := clientReceiver.isIn (lastPiece (· == '.') receiver)

def handlerOf? (s : Source) (rs : List Routine) (arg : Span) : Option Routine :=
  let text := trim (s.spanText arg)
  let text := ((handlerWrap.find? text).map (·.text 1)).getD text
  if startsWith "func" text then
    match rs.filter fun r => arg.contains r.span.start with
    | [] => none
    | r :: more => some (more.foldl (fun b x => if x.span.start < b.span.start then x else b) r)
  else
    let name := String.ofList (lastPiece (· == '.') text)
    rs.find? (·.name == name)

def route? (s : Source) (rs : List Routine) (m : Match) : Option Observation := do
  let verb := m.text 2
  let handles := startsWith "Handle" verb
  if !handles && isClient (m.text 1) then none
  else
    let close ← s.closing? (m.stop - 1)
    let args := s.pieces m.stop close Byte.comma
    if args.length < 2 then none
    else
      let pattern ← Literal.quoted? (s.spanText (args.headD default))
      let (written, path) := match cutWhere? (· == ' ') pattern with
        | some (method, path) => (some (asciiUpper method), trim path)
        | none => (none, pattern)
      if path.head? != some '/' then none
      else
        let method :=
          if !handles then some (asciiUpper verb)
          else
            match methodsCall.find? (s.slice (close + 1) (s.lineEnd (close + 1))) with
            | some ms => some (asciiUpper (ms.text 1))
            | none => written
        let o := Observation.at .server (s.place m.start) ⟨m.start, close + 1⟩
        let o : Observation := { o with
          method := method.map String.ofList
          path := some (String.ofList path) }
        match handlerOf? s rs (args.getLastD default) with
        | none => some o
        | some r => some { o with
            routine := some r.span
            request := decoded? s (s.scopeOf r) r.span.start
            response := encoded? s (s.scopeOf r) }

/-- The payload behind a request body: a reader of bytes that were marshalled before. -/
def requestPayload? (s : Source) (span scope : Span) : Option PayloadSource := do
  let text := trim (s.spanText span)
  if text == "nil".toList then none
  else
    let buffer := ((bodyReader.find? text).map (·.text 1)).getD text
    let marshal := all [
      edge, chars buffer, blanks, char ',', blanks, word, blanks, opt (char ':'), char '=', blanks,
      lit "json.Marshal", opt (lit "Indent"), char '(']
    let m ← marshal.find? (s.spanText scope)
    let opening := scope.start + m.stop - 1
    let close ← s.closing? opening
    let value ← (s.pieces (opening + 1) close Byte.comma).head?
    valuePayload? s value scope

/-- A client observation: a call from the start of its line up to its closing parenthesis. -/
def clientAt (s : Source) (m : Match) (close : Nat) : Observation :=
  Observation.at .client (s.place m.start) ⟨s.lineStart (s.lineOf m.start), close + 1⟩

def builtRequest? (s : Source) (rs : List Routine) (m : Match) : Option Observation := do
  let close ← s.closing? (m.stop - 1)
  let args := s.pieces m.stop close Byte.comma
  let args := if (m.part? 1).isSome then args.drop 1 else args
  match args with
  | verb :: url :: rest =>
    let scope := s.scopeAt rs m.start
    some { clientAt s m close with
      method := method? (s.spanText verb)
      path := path? s url scope
      request := rest.head?.bind (requestPayload? s · scope)
      response := decoded? s scope close }
  | _ => none

def directRequest? (s : Source) (rs : List Routine) (m : Match) : Option Observation := do
  if !isClient (m.text 1) then none
  else
    let close ← s.closing? (m.stop - 1)
    let args := s.pieces m.stop close Byte.comma
    let url ← args.head?
    let scope := s.scopeAt rs m.start
    let verb := m.string 2
    some { clientAt s m close with
      method := some (if verb == "PostForm" then "POST" else String.ofList (asciiUpper (m.text 2)))
      path := path? s url scope
      request := if verb == "Post" then (args[2]?).bind (requestPayload? s · scope) else none
      response := decoded? s scope close }

def observations (s : Source) (rs : List Routine) : List Observation :=
  (s.matchesOf routeCall).filterMap (route? s rs) ++
    (s.matchesOf newRequest).filterMap (builtRequest? s rs) ++
    (s.matchesOf clientCall).filterMap (directRequest? s rs)

end Concord.Go
