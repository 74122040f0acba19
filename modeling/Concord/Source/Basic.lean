import Concord.Location
import Concord.Source.Bracket
import Concord.Text.Basic
import Concord.Text.Utf8

/-! A source holds three byte sequences of one length: the text, the text with comments hidden
(`code`) and the text with comments and the contents of literals hidden (`skeleton`). Patterns are
looked for in the code, brackets in the skeleton, and an offset means the same place in all three.
Newlines are never hidden, so lines agree as well. -/
namespace Concord

structure Comment where
  line : Nat
  text : String
  deriving DecidableEq, Repr

structure Source where
  path : String
  text : Array UInt8
  code : Array UInt8
  skeleton : Array UInt8
  chars : List Char
  comments : List Comment
  lineStarts : Array Nat
  deriving Repr

inductive ParseCause
  | openComment
  | openLiteral
  | strayCloser (closer : UInt8)
  | crossedCloser (closer opener : UInt8) (openerLine : Nat)
  | neverClosed (opener : UInt8)
  deriving DecidableEq, Repr

def ParseCause.message : ParseCause → String
  | .openComment => "unterminated block comment"
  | .openLiteral => "unterminated string literal"
  | .strayCloser c => s!"unbalanced '{Byte.toChar c}'"
  | .crossedCloser c o line =>
    s!"unbalanced '{Byte.toChar c}': '{Byte.toChar o}' opened on line {line} is still open"
  | .neverClosed o => s!"'{Byte.toChar o}' is never closed"

structure ParseError where
  path : String
  line : Nat
  cause : ParseCause
  deriving DecidableEq, Repr

def ParseError.message (e : ParseError) : String := s!"{e.path}:{e.line}: {e.cause.message}"

namespace Source

/-- The offsets after each newline of bytes that start at `offset`. -/
def startsAfter : List UInt8 → (offset : Nat) → List Nat
  | [], _ => []
  | b :: rest, offset =>
    if b == Byte.newline then (offset + 1) :: startsAfter rest (offset + 1)
    else startsAfter rest (offset + 1)

def lineStartsOf (bytes : List UInt8) : List Nat := 0 :: startsAfter bytes 0

/-- The index of a number in an ascending list, or else the index at which it would be put in. -/
def searchAscending (xs : List Nat) (x : Nat) : Except Nat Nat :=
  let i := xs.findIdx (x ≤ ·)
  if xs[i]? == some x then .ok i else .error i

/-- The index of the line an offset is on: the line that starts there, or else the one before. -/
def lineIndex (starts : List Nat) (offset : Nat) : Nat :=
  match searchAscending starts offset with
  | .ok i => i
  | .error i => i - 1

def lineAt (bytes : List UInt8) (offset : Nat) : Nat := lineIndex (lineStartsOf bytes) offset + 1

def commentsOf : List Token → (line : Nat) → List Comment
  | [], _ => []
  | t :: ts, line =>
    let rest := commentsOf ts (line + t.text.count Byte.newline)
    match t with
    | .comment _ body _ => ⟨line, String.ofList (Text.trim (Text.decode body))⟩ :: rest
    | _ => rest

/-- Reads a source. Of several faults the first in the text is reported, and a bracket that is
never closed only if there is no other. -/
def read (lx : Lexis) (path : String) (content : String) : Except ParseError Source :=
  let bytes := Text.encode content.toList
  let (ts, left) := tokens lx none bytes
  let skeleton := ts.flatMap Token.skeleton
  let fail := fun offset cause => Except.error ⟨path, lineAt bytes offset, cause⟩
  match nestTokens ts 0 [] with
  | .error i =>
    match i.pending with
    | some (o, at_) => fail i.offset (.crossedCloser i.closer o (lineAt bytes at_))
    | none => fail i.offset (.strayCloser i.closer)
  | .ok stack =>
    match left with
    | some .comment => fail skeleton.length .openComment
    | some .literal => fail skeleton.length .openLiteral
    | none =>
      match stack with
      | (o, at_) :: _ => fail at_ (.neverClosed o)
      | [] =>
        let code := ts.flatMap Token.code
        .ok {
          path
          text := bytes.toArray
          code := code.toArray
          skeleton := skeleton.toArray
          chars := Text.decode code
          comments := commentsOf ts 1
          lineStarts := (lineStartsOf bytes).toArray }

def slice (s : Source) (start stop : Nat) : List Char := Text.decode (s.code.extract start stop).toList

def spanText (s : Source) (span : Span) : List Char := s.slice span.start span.stop

def bare (s : Source) (start stop : Nat) : List UInt8 := (s.skeleton.extract start stop).toList

def lineOf (s : Source) (offset : Nat) : Nat := lineIndex s.lineStarts.toList offset + 1

/-- The offset of the first character of a line; the end of the text if there is no such line. -/
def lineStart (s : Source) (line : Nat) : Nat := (s.lineStarts[line - 1]?).getD s.text.size

def findByte? (bytes : Array UInt8) (start : Nat) (byte : UInt8) : Option Nat :=
  ((bytes.extract start bytes.size).toList.findIdx? (· == byte)).map (· + start)

def lineEnd (s : Source) (offset : Nat) : Nat := (findByte? s.text offset Byte.newline).getD s.text.size

/-- The place of an offset between two characters; columns count characters. -/
def place (s : Source) (offset : Nat) : Location :=
  let line := s.lineOf offset
  let before := (s.text.extract (s.lineStart line) offset).toList
  ⟨s.path, line, before.countP (!Text.isTail ·) + 1⟩

/-- The place of an offset, if it is not inside a character. -/
def location (s : Source) (offset : Nat) : Except BadCut Location :=
  if s.text[offset]?.any Text.isTail then .error (.inside offset) else .ok (s.place offset)

def codeLine (s : Source) (line : Nat) : List Char :=
  let start := s.lineStart line
  s.slice start (s.lineEnd start)

def excerpt (s : Source) (offset : Nat) : String :=
  String.ofList (Text.trim (s.codeLine (s.lineOf offset)))

def closing? (s : Source) (offset : Nat) : Option Nat :=
  (s.skeleton[offset]?).bind fun opener => (Byte.closerOf? opener).bind fun closer =>
    closingFrom? opener closer (s.bare offset s.skeleton.size) offset 0

/-- The first offset at or after `start` where `byte` stands outside comments and literals. -/
def findBare? (s : Source) (start : Nat) (byte : UInt8) : Option Nat := findByte? s.skeleton start byte

def trimSpan? (s : Source) (span : Span) : Option Span :=
  let t := s.spanText span
  let start := span.start + Text.byteSize (t.takeWhile Text.isBlank)
  let stop := span.stop - Text.byteSize (t.reverse.takeWhile Text.isBlank)
  if start < stop then some ⟨start, stop⟩ else none

def spansBetween (start stop : Nat) : (cuts : List Nat) → List Span
  | [] => [⟨start, stop⟩]
  | c :: cs => ⟨start, c⟩ :: spansBetween (c + 1) stop cs

/-- The pieces of a range between the separators at bracket depth zero, trimmed, the empty ones left
out. -/
def pieces (s : Source) (start stop : Nat) (sep : UInt8) : List Span :=
  (spansBetween start stop (topLevelCuts sep (s.bare start stop) start 0)).filterMap s.trimSpan?

def openParenAfter? (s : Source) (start : Nat) : Option Nat :=
  let rest := s.bare start s.skeleton.size
  let skipped := rest.takeWhile Byte.isBlank
  if rest[skipped.length]? == some Byte.openParen then some (start + skipped.length) else none

/-- The width of the blanks a line starts with; a tab counts four. -/
def indentWidth (line : List Char) : Nat :=
  (line.takeWhile Text.isBlank).foldl (fun n c => n + if c == '\t' then 4 else 1) 0

/-- The first line from `line` on, of `count` lines, up to which the brackets opened from `start` on
are closed. -/
def firstClosedLine (s : Source) (start : Nat) : (count line : Nat) → Nat
  | 0, line => line
  | count + 1, line =>
    if 0 < Byte.total Byte.depthStep (s.bare start (s.lineStart line)) then
      firstClosedLine s start count (line + 1)
    else line

/-- The start of the first of `count` lines from `line` on that is not blank and indented by at most
`base`. -/
def firstOutdent? (s : Source) (base : Nat) : (count line : Nat) → Option Nat
  | 0, _ => none
  | count + 1, line =>
    let text := s.codeLine line
    if !(Text.trim text).isEmpty && indentWidth text ≤ base then some (s.lineStart line)
    else firstOutdent? s base count (line + 1)

/-- The end of the indented block that the line of `header` opens: the start of the first later
line that is not blank and not indented deeper. The header may go on over several lines inside
brackets. -/
def blockEnd (s : Source) (header : Nat) : Nat :=
  let line := s.lineOf header
  let total := s.lineStarts.size
  let body := firstClosedLine s (s.lineStart line) (total - line) (line + 1)
  (firstOutdent? s (indentWidth (s.codeLine line)) (total + 1 - body) body).getD s.text.size

end Source

end Concord
