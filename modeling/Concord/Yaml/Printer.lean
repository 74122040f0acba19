import Concord.Yaml.View

/-! Block style with an indentation of two. A text is written plain where that reads back as the
same text, and quoted otherwise; a text of several lines is a literal block. Some values with
collections or tags as keys have no written form. -/
namespace Concord.Yaml

open Text

def isPrintable (c : Char) : Bool :=
  let n := c.toNat
  n == 0x0A || (0x20 ≤ n && n ≤ 0x7E) || (0xA0 ≤ n && n ≤ 0xD7FF) ||
    (0xE000 ≤ n && n ≤ 0xFFFD && n != 0xFEFF) || 0x10000 ≤ n

structure Trait where
  indicator : Bool
  special : Bool
  spaceBreak : Bool
  breakSpace : Bool

def traitOf (first : Bool) (prior : Option Char) (c : Char) (next : Option Char) : Trait where
  indicator :=
    if first then
      "#,[]\x7b\x7d&*!|>'\"%@`".toList.contains c || "?:-".toList.contains c && endsWord next
    else c == ':' && endsWord next || c == '#' && endsWord prior
  special := !isPrintable c
  spaceBreak := isBreak c && prior == some ' '
  breakSpace := c == ' ' && prior.any isBreak

def traitsFrom (first : Bool) (prior : Option Char) : List Char → List Trait
  | [] => []
  | c :: rest => traitOf first prior c rest.head? :: traitsFrom false (some c) rest

structure Writable where
  plain : Bool
  single : Bool
  block : Bool

def writable (t : List Char) : Writable :=
  let traits := traitsFrom true none t
  let edges := fun (p : Char → Bool) => t.head?.any p || t.getLast?.any p
  let marked := startsWith "---" t || startsWith "..." t || traits.any (·.indicator)
  let special := traits.any fun x => x.special || x.spaceBreak
  let breakSpace := traits.any (·.breakSpace)
  { plain := !marked && !special && !breakSpace && !t.any isBreak && !edges (· == ' ')
    single := !special && !breakSpace
    block := !t.isEmpty && !special && t.getLast? != some ' ' }

def readsAsOther (t : List Char) : Bool :=
  isZeroPadded t ||
    match Value.ofPlain? t with
    | some (.str _) => false
    | _ => true

def styleOf (t : List Char) : Style :=
  let w := writable t
  if t.contains '\n' then (if w.block then .literal else .doubleQuoted)
  else if !readsAsOther t && w.plain then .plain
  else if w.single then .singleQuoted
  else .doubleQuoted

def hexText (width n : Nat) : List Char :=
  let ds := (Nat.toDigits 16 n).map Char.toUpper
  List.replicate (width - ds.length) '0' ++ ds

def quotedChar (c : Char) : List Char :=
  if isPrintable c && !isBreak c && c != '"' && c != '\\' then [c]
  else
    match c.toNat with
    | 0x00 => ['\\', '0']
    | 0x07 => ['\\', 'a']
    | 0x08 => ['\\', 'b']
    | 0x09 => ['\\', 't']
    | 0x0A => ['\\', 'n']
    | 0x0B => ['\\', 'v']
    | 0x0C => ['\\', 'f']
    | 0x0D => ['\\', 'r']
    | 0x1B => ['\\', 'e']
    | 0x22 => ['\\', '"']
    | 0x5C => ['\\', '\\']
    | 0x85 => ['\\', 'N']
    | 0x2028 => ['\\', 'L']
    | 0x2029 => ['\\', 'P']
    | n =>
      if n ≤ 0xFF then '\\' :: 'x' :: hexText 2 n
      else if n ≤ 0xFFFF then '\\' :: 'u' :: hexText 4 n
      else '\\' :: 'U' :: hexText 8 n

/-- A text whose lines are indented, blank ones apart; `fresh` at the start of a line. -/
def indentLines (indent : Nat) (fresh : Bool) : List Char → List Char
  | [] => []
  | c :: rest =>
    if isBreak c then c :: indentLines indent true rest
    else if fresh then List.replicate indent ' ' ++ c :: indentLines indent false rest
    else c :: indentLines indent false rest

def literalText (indent : Nat) (t : List Char) : List Char :=
  let hint := if t.head?.any fun c => c == ' ' || isBreak c then ['2'] else []
  let chomp := match t.reverse with
    | [] => ['-']
    | last :: before =>
      if !isBreak last then ['-'] else if before.head?.all isBreak then ['+'] else []
  '|' :: hint ++ chomp ++ '\n' :: indentLines indent true t

def singleText (indent : Nat) (t : List Char) : List Char :=
  let closing := if t.getLast?.any isBreak then List.replicate indent ' ' ++ ['\''] else ['\'']
  '\'' :: indentLines indent false (replaceChar '\'' ['\'', '\''] t) ++ closing

/-- A text whose lines after the first, if there are any, are indented by `indent`. -/
def textAs (indent : Nat) (style : Style) (t : List Char) : List Char :=
  match style with
  | .plain => t
  | .singleQuoted => singleText indent t
  | .literal | .folded => literalText indent t
  | .doubleQuoted => '"' :: t.flatMap quotedChar ++ ['"']

/-- A scalar before it is quoted; none for a collection and for a tagged value. -/
def bareScalar? : Value → Option (List Char)
  | .null => some "null".toList
  | .bool b => some (if b then "true" else "false").toList
  | .int n => some (toString n).toList
  | .float x => some (floatText x).toList
  | .str s => some s.toList
  | _ => none

def scalarText (indent : Nat) : Value → List Char
  | .str s => textAs indent (styleOf s.toList) s.toList
  | .seq _ => ['[', ']']
  | .map _ => ['{', '}']
  | v => (bareScalar? v).getD []

def markedTag (name : String) : List Char :=
  if name.toList.head? == some '!' then name.toList else '!' :: name.toList

def isTagChar (c : Char) : Bool := isNameChar c || ";/?:@&=+$,.~*'()[]".toList.contains c

/-- The characters of a tag, each byte of those it cannot hold written `%XX`. -/
def tagContent (t : List Char) : List Char :=
  t.flatMap fun c =>
    if isTagChar c then [c] else (encode [c]).flatMap fun b => '%' :: hexText 2 b.toNat

/-- A tag as it is written; the mark alone stands in angle brackets. -/
def tagText (name : String) : List Char :=
  match markedTag name with
  | '!' :: c :: rest => '!' :: tagContent (c :: rest)
  | t => '!' :: '<' :: tagContent t ++ ['>']

inductive Place
  | root
  | item
  | mark
  | member
  deriving DecidableEq

/-- What comes before the first line of a collection: a node on the line of a mark goes on there,
unless its tag does. -/
def leadText (place : Place) (tagged : Bool) (indent : Nat) : List Char :=
  match place, tagged with
  | .root, false => []
  | .item, false | .mark, false => [' ']
  | _, _ => '\n' :: List.replicate indent ' '

/-- The indentation of a sequence inside a collection of indentation `indent`. -/
def itemIndent (place : Place) (tagged : Bool) (indent : Nat) : Nat :=
  match place, tagged with
  | .item, _ | .mark, false => indent + 2
  | _, _ => indent

def entryIndent (place : Place) (indent : Nat) : Nat := if place = .root then indent else indent + 2

def joinLines (indent : Nat) : List (List Char) → List Char
  | [] => []
  | [line] => line
  | line :: rest =>
    line ++ (if line.getLast?.any isBreak then [] else ['\n']) ++ List.replicate indent ' ' ++
      joinLines indent rest

/-- Whether a key, of a size that its tag adds to, fits on its line. -/
def fits (tagSize : Nat) : Value → Bool
  | .seq items => items.isEmpty && tagSize ≤ 128
  | .map entries => entries.isEmpty && tagSize ≤ 128
  | .tagged .. => false
  | v =>
    let t := (bareScalar? v).getD []
    tagSize + byteSize t ≤ 128 && !t.any isBreak

def isSimpleKey : Value → Bool
  | .tagged name v => fits (byteSize (markedTag name)) v
  | v => fits 0 v

def simpleKey (indent : Nat) : Value → List Char
  | .tagged name v => tagText name ++ ' ' :: scalarText indent v
  | v => scalarText indent v

/-- The lines of a key and its value, where `long` is the key after a mark and `value` the value at a
place. -/
def entryLines (indent : Nat) (k : Value) (long : List Char) (value : Place → List Char) :
    List (List Char) :=
  if isSimpleKey k then [simpleKey (indent + 2) k ++ ':' :: value .member]
  else ['?' :: long, ':' :: value .mark]

mutual

/-- A value at a place inside a collection of indentation `indent`; `tagged` if a tag stands before
it. -/
def Value.textAt (place : Place) (tagged : Bool) (indent : Nat) : Value → List Char
  | .tagged name v =>
    (if place = .root then [] else [' ']) ++ tagText name ++ v.textAt place true indent
  | .seq (v :: vs) =>
    let n := itemIndent place tagged indent
    leadText place tagged n ++ joinLines n (('-' :: v.textAt .item false n) :: itemLines n vs)
  | .map ((k, v) :: es) =>
    let n := entryIndent place indent
    leadText place tagged n ++
      joinLines n (entryLines n k (k.textAt .mark false n) (v.textAt · false n) ++ entriesLines n es)
  | v =>
    let n := if place = .root then 2 else indent + 2
    (if place = .root && !tagged then [] else [' ']) ++ scalarText n v

def itemLines (indent : Nat) : List Value → List (List Char)
  | [] => []
  | v :: vs => ('-' :: v.textAt .item false indent) :: itemLines indent vs

def entriesLines (indent : Nat) : List (Value × Value) → List (List Char)
  | [] => []
  | (k, v) :: es =>
    entryLines indent k (k.textAt .mark false indent) (v.textAt · false indent) ++
      entriesLines indent es

end

/-- Whether it shows only inside a value that it is a mapping or tagged. -/
def opensLate : Value → Bool
  | .tagged .. => true
  | .map entries => entries.length == 1
  | _ => false

mutual

/-- Whether a value has a written form. The start of a mapping of one entry without a tag depends on
its key, so that key is neither tagged nor a mapping of one entry. -/
def Value.isWritable (tagged : Bool) : Value → Bool
  | .seq items => itemsWritable items
  | .map entries =>
    (tagged || !(entries.length == 1 && entries.any fun e => opensLate e.1)) && entriesWritable entries
  | .tagged _ v => v.isWritable true
  | _ => true

def itemsWritable : List Value → Bool
  | [] => true
  | v :: vs => v.isWritable false && itemsWritable vs

def entriesWritable : List (Value × Value) → Bool
  | [] => true
  | (k, v) :: es => k.isWritable false && v.isWritable false && entriesWritable es

end

/-- A value as a document, without blanks around it; nothing if it has no written form. -/
def Value.print (v : Value) : String :=
  if v.isWritable false then String.ofList (trim (v.textAt .root false 0)) else ""

end Concord.Yaml
