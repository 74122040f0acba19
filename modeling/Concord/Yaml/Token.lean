import Concord.Text.Basic

/-! The marks and scalars of a YAML stream. Starts and ends of block collections, which the text
shows by indentation alone, are tokens of their own. -/
namespace Concord.Yaml

inductive Style
  | plain
  | singleQuoted
  | doubleQuoted
  | literal
  | folded
  deriving DecidableEq, Repr, Inhabited

inductive Token
  | streamEnd
  | documentStart
  | documentEnd
  | version (major minor : Nat)
  /-- A short form of tags: what stands for `handle`. -/
  | tagHandle (handle : List Char) (lead : List UInt8)
  | blockSequence
  | blockMapping
  | blockEnd
  | flowSequence
  | flowSequenceEnd
  | flowMapping
  | flowMappingEnd
  | blockEntry
  | flowEntry
  | key
  | value
  | reference (name : List Char)
  | anchor (name : List Char)
  | tag (handle : List Char) (suffix : List UInt8)
  | scalar (style : Style) (text : List Char)
  deriving DecidableEq, Repr, Inhabited

def isAllowed (c : Char) : Bool :=
  let n := c.toNat
  n == 0x09 || n == 0x0A || n == 0x0D || (0x20 ≤ n && n ≤ 0x7E) || n == 0x85 ||
    (0xA0 ≤ n && n ≤ 0xD7FF) || (0xE000 ≤ n && n ≤ 0xFFFD) || 0x10000 ≤ n

def isOrderMark (c : Char) : Bool := c.toNat == 0xFEFF

def isBreak (c : Char) : Bool :=
  c == '\n' || c == '\r' || c == '\u0085' || c == '\u2028' || c == '\u2029'

def isSpace (c : Char) : Bool := c == ' ' || c == '\t'

def isSpaceOrBreak (c : Char) : Bool := isSpace c || isBreak c

def endsWord (next : Option Char) : Bool := next.all isSpaceOrBreak

def isNameChar (c : Char) : Bool := Text.isAsciiAlphanumeric c || c == '_' || c == '-'

/-- A line break as it enters a scalar: one newline, except for the two separators. -/
def breakChar (c : Char) : Char := if c == '\u2028' || c == '\u2029' then c else '\n'

structure Cursor where
  rest : List Char
  index : Nat
  line : Nat
  column : Nat
  deriving Repr, Inhabited

namespace Cursor

def char? (c : Cursor) : Option Char := c.rest.head?

def charAt? (c : Cursor) (n : Nat) : Option Char := c.rest[n]?

/-- The place after the next character; a carriage return and a newline are one line break. -/
def next (c : Cursor) : Cursor :=
  match c.rest with
  | [] => c
  | '\r' :: '\n' :: rest => ⟨rest, c.index + 2, c.line + 1, 0⟩
  | ch :: rest =>
    if isBreak ch then ⟨rest, c.index + ch.utf8Size, c.line + 1, 0⟩
    else ⟨rest, c.index + ch.utf8Size, c.line, c.column + 1⟩

def skip (n : Nat) (c : Cursor) : Cursor :=
  ⟨c.rest.drop n, c.index + Text.byteSize (c.rest.take n), c.line, c.column + n⟩

/-- The characters that satisfy `p`, which no line break does, and the place after them. -/
def takeWhile (p : Char → Bool) (c : Cursor) : List Char × Cursor :=
  let t := c.rest.takeWhile p
  (t, c.skip t.length)

def skipWhile (p : Char → Bool) (c : Cursor) : Cursor := (c.takeWhile p).2

def hasMark (c : Cursor) (m : Char) : Bool :=
  c.column == 0 && c.rest.take 3 == [m, m, m] && endsWord (c.charAt? 3)

def hasDocumentMark (c : Cursor) : Bool := c.hasMark '-' || c.hasMark '.'

/-- The rest of the line if it holds at most a comment: the place of the break. -/
def endOfLine? (c : Cursor) : Option Cursor :=
  let c := c.skipWhile isSpace
  let c := if c.char? == some '#' then c.skipWhile (!isBreak ·) else c
  if c.char?.all isBreak then some c else none

end Cursor

end Concord.Yaml
