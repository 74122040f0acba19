import Concord.Text.Basic
import Std.Data.TreeSet

/-! A small language of text patterns with a leftmost, first-choice matcher. A pattern prefers its
left alternative and, unless it is written lazily, the longer repetition; the first complete match
in that order is the match. Matching is total: a repetition ends as soon as it consumes nothing, so
the length of the text bounds it.

Whether a repetition leads to a match depends on its place in the pattern and in the text alone, so
the matcher notes where one failed and does not try it there again. -/
namespace Concord.Text

inductive Anchor
  | textStart
  | textEnd
  | lineStart
  | lineEnd
  | wordEdge
  deriving DecidableEq, Repr

inductive Pattern
  | empty
  | one (holds : Char → Bool)
  | anchor (a : Anchor)
  | seq (first second : Pattern)
  | alt (first second : Pattern)
  /-- Any number of repetitions, as many as possible if `greedy`. The label tells the repetitions of a
  pattern apart while it is matched. -/
  | star (label : Nat) (greedy : Bool) (body : Pattern)
  /-- A part whose place is reported under a number. -/
  | group (n : Nat) (body : Pattern)

namespace Pattern

/-- A place in a text: what precedes it, its byte offset and what follows. -/
structure Cursor where
  prior : Option Char
  offset : Nat
  rest : List Char

def Cursor.ofText (t : List Char) : Cursor := ⟨none, 0, t⟩

def Cursor.next? (c : Cursor) : Option (Char × Cursor) :=
  match c.rest with
  | [] => none
  | ch :: rest => some (ch, ⟨some ch, c.offset + ch.utf8Size, rest⟩)

structure Part where
  start : Nat
  stop : Nat
  text : List Char
  deriving DecidableEq, Repr

def Part.string (p : Part) : String := String.ofList p.text

def partBetween (a b : Cursor) : Part :=
  ⟨a.offset, b.offset, takeBytes (b.offset - a.offset) a.rest⟩

def wordAt (c : Option Char) : Bool := c.any isWord

def Cursor.meets (c : Cursor) : Anchor → Bool
  | .textStart => c.prior.isNone
  | .textEnd => c.rest.isEmpty
  | .lineStart => c.prior.all (· == '\n')
  | .lineEnd => c.rest.head?.all (· == '\n')
  | .wordEdge => wordAt c.prior != wordAt c.rest.head?

/-- The pattern with its repetitions labelled in order from `n` on, and the next label. -/
def labelFrom (n : Nat) : Pattern → Pattern × Nat
  | .seq p q =>
    let (p, n) := labelFrom n p
    let (q, n) := labelFrom n q
    (.seq p q, n)
  | .alt p q =>
    let (p, n) := labelFrom n p
    let (q, n) := labelFrom n q
    (.alt p q, n)
  | .star _ greedy p =>
    let (p, m) := labelFrom (n + 1) p
    (.star n greedy p, m)
  | .group k p =>
    let (p, n) := labelFrom n p
    (.group k p, n)
  | p => (p, n)

def labelled (p : Pattern) : Pattern := (labelFrom 0 p).1

/-- The numbered parts met so far, latest first: where each starts and ends. -/
abbrev Marks := List (Nat × Cursor × Cursor)

/-- Repetitions, by their labels, and offsets from which they reach no match. -/
abbrev DeadEnds := Std.TreeSet (Nat × Nat) (compareLex (compareOn Prod.fst) (compareOn Prod.snd))

/-- The end of a match and its marks, if there is one. Dead ends are noted on the way. -/
abbrev Attempt := OptionT (StateM DeadEnds) (Cursor × Marks)

abbrev Next := Cursor → Marks → Attempt

/-- Tries what is no dead end yet; it is one if it fails. -/
def unlessDead (label offset : Nat) (attempt : Attempt) : Attempt := fun dead =>
  if dead.contains (label, offset) then (none, dead)
  else
    match attempt dead with
    | (some r, dead) => (some r, dead)
    | (none, dead) => (none, dead.insert (label, offset))

/-- Repetition of `step`. Each round must move forward, so `fuel` rounds suffice when `fuel` is at
least the number of characters left. -/
def rounds (label : Nat) (greedy : Bool) (step : Cursor → Marks → Next → Attempt) :
    (fuel : Nat) → Cursor → Marks → Next → Attempt
  | 0, c, ms, k => k c ms
  | fuel + 1, c, ms, k =>
    let again : Next := fun c' ms' =>
      if c.offset < c'.offset then rounds label greedy step fuel c' ms' k else failure
    unlessDead label c.offset <|
      if greedy then step c ms again <|> k c ms else k c ms <|> step c ms again

/-- Matches at a place and goes on with `k`; the first success in the order of preference. `limit` is
at least the number of characters left. -/
def run (limit : Nat) : Pattern → Cursor → Marks → Next → Attempt
  | .empty => fun c ms k => k c ms
  | .one holds => fun c ms k =>
    match c.next? with
    | some (ch, c') => if holds ch then k c' ms else failure
    | none => failure
  | .anchor a => fun c ms k => if c.meets a then k c ms else failure
  | .seq p q => fun c ms k => run limit p c ms fun c' ms' => run limit q c' ms' k
  | .alt p q => fun c ms k => run limit p c ms k <|> run limit q c ms k
  | .star label greedy p => fun c ms k => rounds label greedy (run limit p) limit c ms k
  | .group n p => fun c ms k => run limit p c ms fun c' ms' => k c' ((n, c, c') :: ms')

abbrev Parts := List (Nat × Part)

structure Match where
  whole : Part
  parts : Parts

def Match.part? (m : Match) (n : Nat) : Option Part := (m.parts.find? (·.1 == n)).map (·.2)

def Match.text (m : Match) (n : Nat) : List Char := ((m.part? n).map (·.text)).getD []

def Match.text? (m : Match) (n : Nat) : Option (List Char) := (m.part? n).map (·.text)

def Match.string (m : Match) (n : Nat) : String := String.ofList (m.text n)

def Match.start (m : Match) : Nat := m.whole.start

def Match.stop (m : Match) : Nat := m.whole.stop

def matchAt? (limit : Nat) (p : Pattern) (c : Cursor) : OptionT (StateM DeadEnds) (Match × Cursor) := do
  let (c', ms) ← run limit p c [] fun c' ms => pure (c', ms)
  return (⟨partBetween c c', ms.map fun (n, a, b) => (n, partBetween a b)⟩, c')

/-- The first match at or after a place; `fuel` is at least the number of characters left. -/
def search (limit : Nat) (p : Pattern) :
    (fuel : Nat) → Cursor → OptionT (StateM DeadEnds) (Match × Cursor)
  | 0, c => matchAt? limit p c
  | fuel + 1, c => fun dead =>
    match matchAt? limit p c dead with
    | (some m, dead) => (some m, dead)
    | (none, dead) =>
      match c.next? with
      | some (_, c') => search limit p fuel c' dead
      | none => (none, dead)

/-- All matches from a place on, none overlapping. One that is empty must not stand right after
another, which ended at `last`. -/
def searchAll (limit : Nat) (p : Pattern) :
    (fuel : Nat) → (last : Option Nat) → Cursor → DeadEnds → List Match
  | 0, _, _, _ => []
  | fuel + 1, last, c, dead =>
    match search limit p limit c dead with
    | (none, _) => []
    | (some (m, c'), dead) =>
      if m.whole.start < m.whole.stop then m :: searchAll limit p fuel (some m.whole.stop) c' dead
      else
        let more := match c'.next? with
          | some (_, r) => searchAll limit p fuel (some m.whole.stop) r dead
          | none => []
        if last == some m.whole.stop then more else m :: more

def find? (p : Pattern) (t : List Char) : Option Match :=
  (search t.length p.labelled t.length (.ofText t) ∅).1.map (·.1)

def findAll (p : Pattern) (t : List Char) : List Match :=
  searchAll t.length p.labelled (t.length + 1) none (.ofText t) ∅

def isIn (p : Pattern) (t : List Char) : Bool := (p.find? t).isSome

def replaceAll (p : Pattern) (image : Match → List Char) (t : List Char) : List Char :=
  let step := fun (acc : List Char × Nat) (m : Match) =>
    (acc.1 ++ takeBytes (m.start - acc.2) (dropBytes acc.2 t) ++ image m, m.stop)
  let (done, upTo) := (p.findAll t).foldl step ([], 0)
  done ++ dropBytes upTo t

def all : List Pattern → Pattern
  | [] => .empty
  | [p] => p
  | p :: ps => .seq p (all ps)

def any : List Pattern → Pattern
  | [] => .one fun _ => false
  | [p] => p
  | p :: ps => .alt p (any ps)

def char (c : Char) : Pattern := .one (· == c)

def chars : List Char → Pattern
  | [] => .empty
  | [c] => char c
  | c :: cs => .seq (char c) (chars cs)

def lit (s : String) : Pattern := chars s.toList

def lits (ss : List String) : Pattern := any (ss.map lit)

def oneOf (s : String) : Pattern := .one s.toList.contains

def noneOf (s : String) : Pattern := .one fun c => !s.toList.contains c

def letterOr (s : String) : Pattern := .one fun c => isAsciiLetter c || s.toList.contains c

def alnumOr (s : String) : Pattern := .one fun c => isAsciiAlphanumeric c || s.toList.contains c

def wordOr (s : String) : Pattern := .one fun c => isWord c || s.toList.contains c

def between (low high : Char) : Pattern := .one fun c => low ≤ c && c ≤ high

/-- A letter in either case, with the two signs that fold to an ASCII letter: the long s and the
Kelvin sign. -/
def sameLetter (a c : Char) : Bool :=
  let fold := fun (x : Char) =>
    if 'A' ≤ x && x ≤ 'Z' then Char.ofNat (x.toNat + 32)
    else if x.toNat == 0x17F then 's'
    else if x.toNat == 0x212A then 'k'
    else x
  fold a == fold c

def litAnyCase (s : String) : Pattern := all (s.toList.map fun a => .one (sameLetter a))

def litsAnyCase (ss : List String) : Pattern := any (ss.map litAnyCase)

def isFoldedLetter (c : Char) : Bool := c.toNat == 0x17F || c.toNat == 0x212A

def letterAnyCaseOr (s : String) : Pattern :=
  .one fun c => isAsciiLetter c || isFoldedLetter c || s.toList.contains c

def alnumAnyCaseOr (s : String) : Pattern :=
  .one fun c => isAsciiAlphanumeric c || isFoldedLetter c || s.toList.contains c

def many (p : Pattern) : Pattern := .star 0 true p

def many1 (p : Pattern) : Pattern := .seq p (many p)

def few (p : Pattern) : Pattern := .star 0 false p

def few1 (p : Pattern) : Pattern := .seq p (few p)

def opt (p : Pattern) : Pattern := .alt p .empty

def times : Nat → Pattern → Pattern
  | 0, _ => .empty
  | 1, p => p
  | n + 1, p => .seq p (times n p)

def inLine : Pattern := .one (· != '\n')

def anyChar : Pattern := .one fun _ => true

def blank : Pattern := .one isBlank

def blanks : Pattern := many blank

def blanks1 : Pattern := many1 blank

def gap : Pattern := many (oneOf " \t")

def gap1 : Pattern := many1 (oneOf " \t")

def nonBlank : Pattern := .one fun c => !isBlank c

def wordChar : Pattern := .one isWord

def word : Pattern := many1 wordChar

def digit : Pattern := .one isDigit

def digits : Pattern := many1 digit

def plainName : Pattern := .seq (letterOr "_") (many wordChar)

def dollarName : Pattern := .seq (letterOr "_$") (many (wordOr "$"))

def edge : Pattern := .anchor .wordEdge

def lineStart : Pattern := .anchor .lineStart

def lineEnd : Pattern := .anchor .lineEnd

def textStart : Pattern := .anchor .textStart

def textEnd : Pattern := .anchor .textEnd

end Pattern

end Concord.Text
