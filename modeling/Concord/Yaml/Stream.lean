import Concord.Text.Utf8
import Concord.Yaml.Scalar

/-! Indentation opens and closes block collections. A scalar or a flow collection on one line may
turn out to be a mapping key when a colon follows it; the key token is then put before it. -/
namespace Concord.Yaml

def anchorName (c : Cursor) : Option (List Char × Cursor) :=
  let (name, c) := (c.skip 1).takeWhile isNameChar
  if !name.isEmpty && (endsWord c.char? || c.char?.any ("?:,]\x7d%@`".toList.contains ·)) then
    some (name, c)
  else none

/-- A tag handle: an exclamation mark, or a name between two. -/
def tagHandle (directive : Bool) (c : Cursor) : Option (List Char × Cursor) :=
  if c.char? != some '!' then none
  else
    let (name, c) := (c.skip 1).takeWhile isNameChar
    if c.char? == some '!' then some ('!' :: name ++ ['!'], c.skip 1)
    else if directive && !name.isEmpty then none
    else some ('!' :: name, c)

/-- The bytes of an escaped character, each written `%XX`: its lead byte tells their number. -/
def escapedBytes? : (count : Nat) → List Char → Option (List UInt8)
  | 0, _ => some []
  | count + 1, '%' :: a :: b :: rest => do
    let byte := 16 * (← hexDigit? a) + (← hexDigit? b)
    (escapedBytes? count rest).map (UInt8.ofNat byte :: ·)
  | _, _ => none

def leadWidth? (b : UInt8) : Option Nat :=
  if b < 0x80 then some 1
  else if 0xC0 ≤ b && b < 0xE0 then some 2
  else if 0xE0 ≤ b && b < 0xF0 then some 3
  else if 0xF0 ≤ b && b < 0xF8 then some 4
  else none

/-- The bytes that `%XX` escapes spell: a lead byte and as many others as it asks for. They need not
encode a character. -/
def escaped? (t : List Char) : Option (List UInt8) := do
  let lead ← (← escapedBytes? 1 t).head?
  let bytes ← escapedBytes? (← leadWidth? lead) t
  if (bytes.drop 1).all Text.isTail then some bytes else none

/-- The bytes of a tag after its handle; in a directive and in angle brackets also commas and square
brackets. The text left bounds `fuel`. -/
def tagBytes (wide : Bool) : (fuel : Nat) → Cursor → Option (List UInt8 × Cursor)
  | 0, c => some ([], c)
  | fuel + 1, c =>
    match c.char? with
    | none => some ([], c)
    | some ch =>
      if ch == '%' then do
        let bytes ← escaped? c.rest
        let (t, c) ← tagBytes wide fuel (c.skip (3 * bytes.length))
        some (bytes ++ t, c)
      else if isNameChar ch || ";/?:@&=+$.!~*'()".toList.contains ch ||
          wide && ",[]".toList.contains ch then do
        let (t, c) ← tagBytes wide fuel (c.skip 1)
        some (Text.encode [ch] ++ t, c)
      else some ([], c)

/-- What counts of a tag: the bytes before the first zero byte. -/
def beforeZero (bs : List UInt8) : List UInt8 := bs.takeWhile (· != 0)

def tagProperty (flow : Bool) (c : Cursor) : Option (Token × Cursor) := do
  let (token, c) ←
    if c.charAt? 1 == some '<' then do
      let (t, c) ← tagBytes true c.rest.length (c.skip 2)
      if t.isEmpty || c.char? != some '>' then none else some (Token.tag [] (beforeZero t), c.skip 1)
    else do
      let (handle, c) ← tagHandle false c
      let (t, c) ← tagBytes false c.rest.length c
      if 1 < handle.length && handle.getLast? == some '!' then
        if t.isEmpty then none else some (Token.tag handle (beforeZero t), c)
      else
        let suffix := beforeZero (Text.encode (handle.drop 1) ++ t)
        some (if suffix.isEmpty then Token.tag [] (Text.encode ['!']) else Token.tag ['!'] suffix, c)
  if endsWord c.char? || flow && c.char? == some ',' then some (token, c) else none

def versionPart (c : Cursor) : Option (Nat × Cursor) :=
  let (ds, c) := c.takeWhile Text.isAsciiDigit
  if ds.isEmpty || 9 < ds.length then none
  else some (ds.foldl (fun n d => 10 * n + (d.toNat - '0'.toNat)) 0, c)

def directive (c : Cursor) : Option (Token × Cursor) := do
  let (name, c) := (c.skip 1).takeWhile isNameChar
  if !endsWord c.char? then none
  else
    let c := c.skipWhile isSpace
    let (token, c) ← match String.ofList name with
      | "YAML" => do
        let (major, c) ← versionPart c
        if c.char? != some '.' then none
        else
          let (minor, c) ← versionPart (c.skip 1)
          some (Token.version major minor, c)
      | "TAG" => do
        let (handle, c) ← tagHandle true c
        if !c.char?.any isSpace then none
        else
          let c := c.skipWhile isSpace
          let (lead, c) ← tagBytes true c.rest.length c
          if lead.isEmpty || !endsWord c.char? then none
          else some (Token.tagHandle handle (beforeZero lead), c)
      | _ => none
    let c ← c.endOfLine?
    some (token, c.next)

structure PendingKey where
  /-- Whether nothing but a key can stand there. -/
  required : Bool
  position : Nat
  index : Nat
  line : Nat
  column : Nat
  deriving Repr, Inhabited

structure Scan where
  cursor : Cursor
  tokens : Array Token
  /-- The indentation of the innermost block, -1 outside all. -/
  indent : Int
  indents : List Int
  pending : Option PendingKey
  /-- Those of the collections around it: one per open flow collection. -/
  outer : List (Option PendingKey)
  keyAllowed : Bool
  deriving Repr, Inhabited

namespace Scan

def start (text : List Char) : Scan := ⟨⟨text, 0, 0, 0⟩, #[], -1, [], none, [], true⟩

def inFlow (s : Scan) : Bool := !s.outer.isEmpty

def push (s : Scan) (t : Token) : Scan := { s with tokens := s.tokens.push t }

def dropKey (s : Scan) : Option Scan :=
  if s.pending.any (·.required) then none else some { s with pending := none }

def noteKey (s : Scan) : Option Scan :=
  if s.keyAllowed then
    s.dropKey.map fun s => { s with
      pending := some {
        required := !s.inFlow && s.indent == (s.cursor.column : Int)
        position := s.tokens.size
        index := s.cursor.index
        line := s.cursor.line
        column := s.cursor.column } }
  else some s

/-- The key before a colon: it ends on its line and within 1024 bytes. A key that is too long is
refused where one had to be. -/
def keyHere (s : Scan) : Option (Option PendingKey) :=
  match s.pending with
  | none => some none
  | some k =>
    if k.line < s.cursor.line || k.index + 1024 < s.cursor.index then
      if k.required then none else some none
    else some (some k)

/-- Closes the blocks that are indented deeper than `column`; the blocks around bound `fuel`. -/
def closeBlocks (column : Int) : (fuel : Nat) → Scan → Scan
  | 0, s => s
  | fuel + 1, s =>
    if column < s.indent then
      match s.indents with
      | outer :: more =>
        closeBlocks column fuel { s.push .blockEnd with indent := outer, indents := more }
      | [] => s
    else s

def unindent (s : Scan) (column : Int) : Scan :=
  if s.inFlow then s else closeBlocks column s.indents.length s

/-- Opens a block at a column that is deeper than the current one, its token at `position`. -/
def openBlock (s : Scan) (column position : Nat) (t : Token) : Scan :=
  if !s.inFlow && s.indent < (column : Int) then
    { s with
      tokens := s.tokens.insertIdxIfInBounds position t
      indent := column
      indents := s.indent :: s.indents }
  else s

def openBlockHere (s : Scan) (t : Token) : Scan := s.openBlock s.cursor.column s.tokens.size t

def take (s : Scan) (n : Nat) (t : Token) : Scan := { s.push t with cursor := s.cursor.skip n }

def allow (s : Scan) (b : Bool) : Scan := { s with keyAllowed := b }

/-- Skips spaces, breaks, comments and the byte order mark of a line; after a break outside flow
collections a key may start. A tab counts as a space only where no key may start. The text left bounds
`fuel`. -/
def skipGap : (fuel : Nat) → Scan → Scan
  | 0, s => s
  | fuel + 1, s =>
    let c := s.cursor
    let c := if c.column == 0 && c.char?.any isOrderMark then c.skip 1 else c
    let c := c.skipWhile fun ch => ch == ' ' || ch == '\t' && (s.inFlow || !s.keyAllowed)
    let c := if c.char? == some '#' then c.skipWhile (!isBreak ·) else c
    if c.char?.any isBreak then
      skipGap fuel { s with cursor := c.next, keyAllowed := s.keyAllowed || !s.inFlow }
    else { s with cursor := c }

def closeAll (s : Scan) : Option Scan := ((s.unindent (-1)).dropKey).map (·.allow false)

def flowStart (s : Scan) (t : Token) : Option Scan :=
  s.noteKey.map fun s =>
    ({ s with pending := none, outer := s.pending :: s.outer }.allow true).take 1 t

def flowEnd (s : Scan) (t : Token) : Option Scan :=
  s.dropKey.map fun s =>
    let s := match s.outer with
      | k :: more => { s with pending := k, outer := more }
      | [] => s
    (s.allow false).take 1 t

def blockEntry (s : Scan) : Option Scan :=
  if !s.inFlow && !s.keyAllowed then none
  else ((s.openBlockHere .blockSequence).dropKey).map fun s => (s.allow true).take 1 .blockEntry

def explicitKey (s : Scan) : Option Scan :=
  if !s.inFlow && !s.keyAllowed then none
  else ((s.openBlockHere .blockMapping).dropKey).map fun s => (s.allow !s.inFlow).take 1 .key

/-- A colon: the value of the key before it, or of an empty or explicit key. -/
def mappingValue (s : Scan) : Option Scan := do
  match ← s.keyHere with
  | some k =>
    let s := { s with tokens := s.tokens.insertIdxIfInBounds k.position .key, pending := none }
    some (((s.openBlock k.column k.position .blockMapping).allow false).take 1 .value)
  | none =>
    let s := { s with pending := none }
    if !s.inFlow && !s.keyAllowed then none
    else some (((s.openBlockHere .blockMapping).allow !s.inFlow).take 1 .value)

def readKeyed (s : Scan) (read : Cursor → Option (Token × Cursor)) : Option Scan := do
  let s ← s.noteKey
  let (t, c) ← read s.cursor
  some { (s.push t).allow false with cursor := c }

def block (s : Scan) (literal : Bool) : Option Scan := do
  let s ← s.dropKey
  let (t, c) ← blockScalar literal s.indent s.cursor
  some { (s.push (.scalar (if literal then .literal else .folded) t)).allow true with cursor := c }

def plain (s : Scan) : Option Scan := do
  let s ← s.noteKey
  let (t, broken, c) ← plainScalar s.inFlow s.indent s.cursor
  some { (s.push (.scalar .plain t)).allow broken with cursor := c }

def startsPlain (s : Scan) (ch : Char) (next : Option Char) : Bool :=
  !(isSpaceOrBreak ch || "-?:,[]\x7b\x7d#&*!|>'\"%@`".toList.contains ch) ||
    ch == '-' && !next.any isSpace || !s.inFlow && (ch == '?' || ch == ':') && !endsWord next

def step (s : Scan) : Option Scan :=
  let s := skipGap (s.cursor.rest.length + 1) s
  let s := s.unindent s.cursor.column
  let c := s.cursor
  match c.rest with
  | [] => s.closeAll.map (·.push .streamEnd)
  | ch :: rest =>
    let next := rest.head?
    if c.column == 0 && ch == '%' then do
      let s ← s.closeAll
      let (t, c) ← directive s.cursor
      some { s.push t with cursor := c }
    else if c.hasMark '-' then s.closeAll.map (·.take 3 .documentStart)
    else if c.hasMark '.' then s.closeAll.map (·.take 3 .documentEnd)
    else if ch == '[' then s.flowStart .flowSequence
    else if ch == '{' then s.flowStart .flowMapping
    else if ch == ']' then s.flowEnd .flowSequenceEnd
    else if ch == '}' then s.flowEnd .flowMappingEnd
    else if ch == ',' then s.dropKey.map fun s => (s.allow true).take 1 .flowEntry
    else if ch == '-' && endsWord next then s.blockEntry
    else if ch == '?' && (s.inFlow || endsWord next) then s.explicitKey
    else if ch == ':' && (s.inFlow || endsWord next) then s.mappingValue
    else if ch == '*' then s.readKeyed fun c => (anchorName c).map fun p => (.reference p.1, p.2)
    else if ch == '&' then s.readKeyed fun c => (anchorName c).map fun p => (.anchor p.1, p.2)
    else if ch == '!' then s.readKeyed (tagProperty s.inFlow)
    else if ch == '|' && !s.inFlow then s.block true
    else if ch == '>' && !s.inFlow then s.block false
    else if ch == '\'' || ch == '"' then
      let single := ch == '\''
      s.readKeyed fun c => (quotedScalar single c).map fun p =>
        (.scalar (if single then .singleQuoted else .doubleQuoted) p.1, p.2)
    else if s.startsPlain ch next then s.plain
    else none

/-- Reads tokens up to the end of the stream. Each but the last takes at least one character, so the
length of the text bounds `fuel`. -/
def run : (fuel : Nat) → Scan → Option (Array Token)
  | 0, _ => none
  | fuel + 1, s => do
    let s ← s.step
    if s.tokens.back? == some .streamEnd then some s.tokens else run fuel s

end Scan

def tokens? (text : List Char) : Option (List Token) :=
  if text.all isAllowed then (Scan.run (text.length + 2) (.start text)).map Array.toList else none

end Concord.Yaml
