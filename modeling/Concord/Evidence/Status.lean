import Concord.Evidence.Basic
import Concord.Source.Basic
import Concord.Text.Pattern
import Concord.Text.Sorted

/-! # Status codes in code -/
namespace Concord.Status

open Text Pattern

/-- Reason phrases in lower case without separators, with their codes. -/
def phrases : List (String × Nat) := [
  ("ok", 200), ("created", 201), ("accepted", 202), ("nocontent", 204), ("movedpermanently", 301),
  ("found", 302), ("notmodified", 304), ("badrequest", 400), ("unauthorized", 401),
  ("paymentrequired", 402), ("forbidden", 403), ("notfound", 404), ("methodnotallowed", 405),
  ("conflict", 409), ("gone", 410), ("preconditionfailed", 412), ("unprocessableentity", 422),
  ("unprocessablecontent", 422), ("toomanyrequests", 429), ("internalservererror", 500),
  ("notimplemented", 501), ("badgateway", 502), ("serviceunavailable", 503),
  ("gatewaytimeout", 504)]

def ofName? (name : List Char) : Option Nat :=
  phrases.lookup (String.ofList (asciiLower (name.filter isAsciiAlphanumeric)))

def ofDigits? (t : List Char) : Option Nat :=
  if t.all isAsciiDigit then some (t.foldl (fun n c => 10 * n + (c.toNat - '0'.toNat)) 0) else none

def isSuccess (code : Nat) : Bool := 200 ≤ code && code < 300

def covers (m : StatusMatch) (code : Nat) : Bool :=
  match m with
  | .code c => c == code
  | .success => isSuccess code

def token : Pattern := any [
  all [litAnyCase "status", opt (char '_'), litAnyCase "code"],
  all [edge, litAnyCase "status", edge], litAnyCase "getStatusCode", litAnyCase "statusCode()",
  all [litAnyCase ".code", edge]]

def codeDigits : Pattern := all [between '1' '5', digit, digit]

def number : Pattern := all [edge, group 1 codeDigits, edge]

def named : Pattern := all [
  edge,
  any [
    lit "http.Status", lit "HttpStatus.", lit "HTTPStatus.",
    all [lit "status.HTTP_", times 3 digit, char '_'], lit "HttpStatusCode."],
  group 1 (many1 (letterOr "_"))]

def numbered : Pattern := all [edge, lit "status.HTTP_", group 1 (times 3 digit)]

def successCheck : Pattern := any [
  all [lit ".ok", edge], lit "raise_for_status()", lit "is2xxSuccessful()",
  all [lit ".is_success", edge], lit ".isSuccessful()"]

def write : Pattern := any [
  lit "WriteHeader(", lit ".status(", lit "sendStatus(", lit "ResponseEntity.status(",
  lit "ResponseStatusException(", lit "@ResponseStatus(", lit "HTTPException(",
  all [edge, lit "abort("], lit ".JSON(", lit ".String(", lit "http.Error(",
  all [lit "status_code", blanks, char '=']]

def entityWrite : Pattern := all [
  lit "ResponseEntity", blanks, char '.', blanks,
  group 1 (lits [
    "ok", "created", "accepted", "noContent", "badRequest", "notFound", "unprocessableEntity"]),
  blanks, char '(']

def returnedPair : Pattern := all [
  lineStart, blanks, lit "return", blanks1, many inLine, char ',', blanks, group 1 codeDigits, blanks,
  lineEnd]

def distinct (branches : List StatusBranch) : List StatusBranch :=
  let sorted := branches.mergeSort fun a b =>
    (StatusMatch.compare a.code b.code).then (Location.compare a.location b.location) != .gt
  let rec keepFirst : List StatusBranch → List StatusBranch
    | [] => []
    | [b] => [b]
    | a :: b :: rest =>
      if a.code = b.code then keepFirst (a :: rest) else a :: keepFirst (b :: rest)
  keepFirst sorted

/-- The lines of a text with their ends, each with its offset from `offset` on. -/
def linesFrom (offset : Nat) (t : List Char) : List (Nat × List Char) :=
  let rec go : List (List Char) → Nat → List (Nat × List Char)
    | [], _ => []
    | [last], o => if last.isEmpty then [] else [(o, last)]
    | l :: rest, o => (o, l ++ ['\n']) :: go rest (o + byteSize l + 1)
  go (split '\n' t) offset

def branchesBy (s : Source) (offset : Nat) (ms : List Match) (place : Match → Nat)
    (code : Match → Option Nat) : List StatusBranch :=
  ms.filterMap fun m => (code m).map fun c => ⟨.code c, s.place (offset + place m)⟩

def branches (s : Source) (start stop : Nat) : List StatusBranch :=
  let region := s.slice start stop
  let hasStatus := token.isIn region || named.isIn region
  distinct ((linesFrom start region).flatMap fun (offset, line) =>
    let counts := token.isIn line || (startsWith "case " (trimStart line) && hasStatus)
    (if counts then branchesBy s offset (number.findAll line) (·.start) (fun m => ofDigits? (m.text 1))
      else []) ++
    branchesBy s offset (named.findAll line) (·.start) (fun m => ofName? (m.text 1)) ++
    branchesBy s offset (numbered.findAll line) (·.start) (fun m => ofDigits? (m.text 1)) ++
    (successCheck.findAll line).map fun m => ⟨.success, s.place (offset + m.start)⟩)

def first? (t : List Char) : Option Nat :=
  let of := fun (p : Pattern) (code : List Char → Option Nat) =>
    (p.find? t).bind fun m => (code (m.text 1)).map fun c => (m.start, c)
  let found := [of number ofDigits?, of named ofName?, of numbered ofDigits?].filterMap id
  match found with
  | [] => none
  | f :: fs => some (fs.foldl (fun best x => if x.1 < best.1 then x else best) f).2

def writes (s : Source) (start stop : Nat) : List StatusBranch :=
  let region := s.slice start stop
  let called := (write.findAll region).filterMap fun m =>
    let after := start + m.stop
    (first? (s.slice after (max after (min (s.lineEnd after) stop)))).map fun c =>
      ⟨.code c, s.place (start + m.start)⟩
  let entities := branchesBy s start (entityWrite.findAll region) (·.start) fun m => ofName? (m.text 1)
  let returned := branchesBy s start (returnedPair.findAll region)
    (fun m => ((m.part? 1).map (·.start)).getD 0) fun m => ofDigits? (m.text 1)
  distinct (called ++ entities ++ returned)

end Concord.Status
