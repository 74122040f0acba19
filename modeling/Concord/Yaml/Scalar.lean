import Concord.Yaml.Token

/-! Plain, quoted and block scalars with their rules for joining lines. -/
namespace Concord.Yaml

structure Gap where
  spaces : List Char
  /-- Whether there is a break, and which one; an escaped break leaves nothing. -/
  lead : Option (Option Char)
  more : List Char
  deriving Repr, Inhabited

namespace Gap

def empty : Gap := ⟨[], none, []⟩

def escaped : Gap := ⟨[], some none, []⟩

def hasBreak (g : Gap) : Bool := g.lead.isSome

/-- A single break is a space, several are one less. -/
def text (g : Gap) : List Char :=
  match g.lead with
  | none => g.spaces
  | some none => g.more
  | some (some b) => if b == '\n' then (if g.more.isEmpty then [' '] else g.more) else b :: g.more

end Gap

/-- Reads a gap. After a break, a tab left of column `margin` is refused. The text left bounds
`fuel`. -/
def gapFrom (margin : Int) : (fuel : Nat) → Cursor → Gap → Option (Gap × Cursor)
  | 0, c, g => some (g, c)
  | fuel + 1, c, g =>
    match c.char? with
    | none => some (g, c)
    | some ch =>
      if isSpace ch then
        if g.hasBreak then
          if ch == '\t' && (c.column : Int) < margin then none else gapFrom margin fuel c.next g
        else gapFrom margin fuel c.next { g with spaces := g.spaces ++ [ch] }
      else if isBreak ch then
        if g.hasBreak then gapFrom margin fuel c.next { g with more := g.more ++ [breakChar ch] }
        else gapFrom margin fuel c.next ⟨[], some (some (breakChar ch)), []⟩
      else some (g, c)

/-- The characters of a plain scalar up to a space, a break or an indicator. Inside flow collections
a colon right before an indicator is refused. -/
def plainRun (flow : Bool) : List Char → Option (List Char)
  | [] => some []
  | c :: rest =>
    let follows := fun (s : String) => rest.head?.any (s.toList.contains ·)
    if isSpaceOrBreak c then some []
    else if flow && c == ':' && follows ",?[]\x7b\x7d" then none
    else if c == ':' && endsWord rest.head? || flow && ",[]\x7b\x7d".toList.contains c then some []
    else (plainRun flow rest).map (c :: ·)

/-- The rest of a plain scalar after `text` and a gap, and whether it ends after a break. The text
left bounds `fuel`. -/
def plainFrom (flow : Bool) (indent : Int) :
    (fuel : Nat) → Cursor → (text : List Char) → Gap → Option (List Char × Bool × Cursor)
  | 0, c, text, g => some (text, g.hasBreak, c)
  | fuel + 1, c, text, g =>
    if c.hasDocumentMark || c.char? == some '#' then some (text, g.hasBreak, c)
    else do
      let run ← plainRun flow c.rest
      let c := c.skip run.length
      let text := if run.isEmpty then text else text ++ g.text ++ run
      let g := if run.isEmpty then g else .empty
      if c.char?.any isSpaceOrBreak then
        let (g, c) ← gapFrom (indent + 1) c.rest.length c .empty
        if !flow && (c.column : Int) < indent + 1 then some (text, g.hasBreak, c)
        else plainFrom flow indent fuel c text g
      else some (text, g.hasBreak, c)

def plainScalar (flow : Bool) (indent : Int) (c : Cursor) : Option (List Char × Bool × Cursor) :=
  plainFrom flow indent (c.rest.length + 1) c [] .empty

def escape? : Char → Option Char
  | '0' => some (Char.ofNat 0)
  | 'a' => some (Char.ofNat 0x07)
  | 'b' => some (Char.ofNat 0x08)
  | 't' | '\t' => some '\t'
  | 'n' => some '\n'
  | 'v' => some (Char.ofNat 0x0B)
  | 'f' => some (Char.ofNat 0x0C)
  | 'r' => some '\r'
  | 'e' => some (Char.ofNat 0x1B)
  | ' ' => some ' '
  | '"' => some '"'
  | '/' => some '/'
  | '\\' => some '\\'
  | 'N' => some '\u0085'
  | '_' => some '\u00a0'
  | 'L' => some '\u2028'
  | 'P' => some '\u2029'
  | _ => none

def escapeWidth? : Char → Option Nat
  | 'x' => some 2
  | 'u' => some 4
  | 'U' => some 8
  | _ => none

def hexDigit? (c : Char) : Option Nat :=
  if Text.isAsciiDigit c then some (c.toNat - '0'.toNat)
  else if 'a' ≤ c && c ≤ 'f' then some (c.toNat - 'a'.toNat + 10)
  else if 'A' ≤ c && c ≤ 'F' then some (c.toNat - 'A'.toNat + 10)
  else none

def hexChar? (ds : List Char) : Option Char := do
  let values ← ds.mapM hexDigit?
  let n := values.foldl (fun n d => 16 * n + d) 0
  if n.isValidChar then some (Char.ofNat n) else none

/-- The characters of a quoted scalar up to a space, a break or the closing quote; true if they end
in an escaped break. The text left bounds `fuel`. -/
def quotedRun (single : Bool) : (fuel : Nat) → Cursor → Option (List Char × Bool × Cursor)
  | 0, c => some ([], false, c)
  | fuel + 1, c =>
    let keep := fun (ch : Char) (r : Option (List Char × Bool × Cursor)) =>
      r.map fun (t, broken, c) => (ch :: t, broken, c)
    match c.rest with
    | [] => some ([], false, c)
    | ch :: rest =>
      if isSpaceOrBreak ch then some ([], false, c)
      else if single then
        if ch == '\'' then
          if rest.head? == some '\'' then keep '\'' (quotedRun single fuel (c.skip 2))
          else some ([], false, c)
        else keep ch (quotedRun single fuel (c.skip 1))
      else if ch == '"' then some ([], false, c)
      else if ch == '\\' then
        match rest with
        | [] => none
        | e :: more =>
          if isBreak e then some ([], true, (c.skip 1).next)
          else
            match escape? e, escapeWidth? e with
            | some image, _ => keep image (quotedRun single fuel (c.skip 2))
            | none, some width =>
              match (if width ≤ more.length then hexChar? (more.take width) else none) with
              | some image => keep image (quotedRun single fuel (c.skip (2 + width)))
              | none => none
            | none, none => none
      else keep ch (quotedRun single fuel (c.skip 1))

/-- The rest of a quoted scalar after `text`. The text left bounds `fuel`. -/
def quotedFrom (single : Bool) : (fuel : Nat) → Cursor → (text : List Char) →
    Option (List Char × Cursor)
  | 0, _, _ => none
  | fuel + 1, c, text =>
    if c.hasDocumentMark || c.rest.isEmpty then none
    else do
      let (run, broken, c) ← quotedRun single c.rest.length c
      if c.char? == some (if single then '\'' else '"') then some (text ++ run, c.skip 1)
      else
        let (g, c) ← gapFrom 0 c.rest.length c (if broken then .escaped else .empty)
        quotedFrom single fuel c (text ++ run ++ g.text)

def quotedScalar (single : Bool) (c : Cursor) : Option (List Char × Cursor) :=
  quotedFrom single (c.rest.length + 1) (c.skip 1) []

inductive Chomping
  | strip
  | clip
  | keep
  deriving DecidableEq, Repr

def chomping? (c : Cursor) : Option Chomping :=
  match c.char? with
  | some '+' => some .keep
  | some '-' => some .strip
  | _ => none

/-- An indentation indicator, a digit but zero; refused if it is zero. -/
def increment? (c : Cursor) : Option (Option Nat) :=
  match c.char? with
  | some ch =>
    if ch == '0' then none
    else if Text.isAsciiDigit ch then some (some (ch.toNat - '0'.toNat))
    else some none
  | none => some none

/-- The indicators after the mark of a block scalar, in either order. -/
def blockHeader (c : Cursor) : Option (Chomping × Option Nat × Cursor) :=
  match chomping? c with
  | some ch => do
    let c := c.skip 1
    match ← increment? c with
    | some n => some (ch, some n, c.skip 1)
    | none => some (ch, none, c)
  | none => do
    match ← increment? c with
    | some n =>
      let c := c.skip 1
      match chomping? c with
      | some ch => some (ch, some n, c.skip 1)
      | none => some (.clip, some n, c)
    | none => some (.clip, none, c)

/-- Breaks and indentation before a line of a block scalar, whose indentation is `indent` if it is
known; also the widest indentation seen. The text left bounds `fuel`. -/
def blockBreaks (indent : Option Nat) : (fuel : Nat) → Cursor → (widest : Nat) → (breaks : List Char) →
    Option (List Char × Nat × Cursor)
  | 0, c, widest, breaks => some (breaks, widest, c)
  | fuel + 1, c, widest, breaks =>
    let spaces := (c.takeWhile (· == ' ')).1.length
    let c := c.skip (match indent with
      | some n => min spaces (n - c.column)
      | none => spaces)
    let widest := max widest c.column
    if indent.all (c.column < ·) && c.char? == some '\t' then none
    else
      match c.char? with
      | some ch =>
        if isBreak ch then blockBreaks indent fuel c.next widest (breaks ++ [breakChar ch])
        else some (breaks, widest, c)
      | none => some (breaks, widest, c)

/-- The lines of a block scalar: `text` so far, the break after its last line, and the breaks after
that. The text left bounds `fuel`. -/
def blockLines (literal : Bool) (indent : Nat) : (fuel : Nat) → Cursor →
    (text lead more : List Char) → (leadingSpace : Bool) →
    Option (List Char × List Char × List Char × Cursor)
  | 0, c, text, lead, more, _ => some (text, lead, more, c)
  | fuel + 1, c, text, lead, more, leadingSpace =>
    if c.column == indent && !c.rest.isEmpty then do
      let spaced := c.char?.any isSpace
      let joined :=
        if !literal && lead == ['\n'] && !leadingSpace && !spaced then
          if more.isEmpty then [' '] else []
        else lead
      let (line, c) := c.takeWhile (!isBreak ·)
      let lead := match c.char? with
        | some b => [breakChar b]
        | none => []
      let c := c.next
      let text := text ++ joined ++ more ++ line
      let (more, _, c) ← blockBreaks (some indent) (c.rest.length + 1) c 0 []
      blockLines literal indent fuel c text lead more spaced
    else some (text, lead, more, c)

/-- Reads a block scalar from its mark on, below a block of the given indentation. -/
def blockScalar (literal : Bool) (parent : Int) (c : Cursor) : Option (List Char × Cursor) := do
  let (chomping, increment, c) ← blockHeader (c.skip 1)
  let c ← c.endOfLine?
  let c := c.next
  let base := parent.toNat
  let known := increment.map (base + ·)
  let (more, widest, c) ← blockBreaks known (c.rest.length + 1) c 0 []
  let indent := known.getD (max (max widest (parent + 1).toNat) 1)
  let (text, lead, more, c) ← blockLines literal indent (c.rest.length + 1) c [] [] more false
  let tail := match chomping with
    | .strip => []
    | .clip => lead
    | .keep => lead ++ more
  some (text ++ tail, c)

end Concord.Yaml
