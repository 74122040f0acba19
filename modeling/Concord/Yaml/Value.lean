import Concord.Number.Decimal
import Concord.Yaml.Node

/-! What a plain scalar stands for: nothing, a truth value, a number of 64 bits or a text. -/
namespace Concord.Yaml

open Text

inductive Value
  | null
  | bool (b : Bool)
  | int (n : Int)
  | float (x : Binary64)
  | str (s : String)
  | seq (items : List Value)
  | map (entries : List (Value × Value))
  | tagged (tag : String) (value : Value)
  deriving Repr, Inhabited

def isNull (t : List Char) : Bool := ["null", "Null", "NULL", "~"].contains (String.ofList t)

def bool? (t : List Char) : Option Bool :=
  match String.ofList t with
  | "true" | "True" | "TRUE" => some true
  | "false" | "False" | "FALSE" => some false
  | _ => none

def isZeroPadded (t : List Char) : Bool :=
  let ds := match t with
    | '+' :: ds | '-' :: ds => ds
    | _ => t
  1 < ds.length && ds.head? == some '0' && ds.all isAsciiDigit

def digitsIn? (base limit : Nat) (ds : List Char) : Option Nat := do
  if ds.isEmpty then none
  else
    let values ← ds.mapM fun c => (hexDigit? c).filter (· < base)
    let n := values.foldl (fun n d => base * n + d) 0
    if n ≤ limit then some n else none

def natural? (limit : Nat) (t : List Char) : Option Nat :=
  match t with
  | '0' :: 'x' :: ds => digitsIn? 16 limit ds
  | '0' :: 'o' :: ds => digitsIn? 8 limit ds
  | '0' :: 'b' :: ds => digitsIn? 2 limit ds
  | ds => if isZeroPadded ds then none else digitsIn? 10 limit ds

def integer? (low high : Nat) (t : List Char) : Option Int :=
  match t with
  | '-' :: ds => (natural? low ds).map fun n => -(n : Int)
  | '+' :: ds => (natural? high ds).map (↑·)
  | ds => (natural? high ds).map (↑·)

def int64? (t : List Char) : Option Int := integer? (Nat.pow 2 63) (Nat.pow 2 64 - 1) t

def int128? (t : List Char) : Option Int := integer? (Nat.pow 2 127) (Nat.pow 2 128 - 1) t

def float? (t : List Char) : Option Binary64 :=
  let body := match t with
    | '+' :: rest => rest
    | _ => t
  if t.head? == some '+' && (body.head? == some '+' || body.head? == some '-') then none
  else
    match String.ofList body, String.ofList t with
    | ".inf", _ | ".Inf", _ | ".INF", _ => some (.inf false)
    | _, "-.inf" | _, "-.Inf" | _, "-.INF" => some (.inf true)
    | _, ".nan" | _, ".NaN" | _, ".NAN" => some .nan
    | _, _ => (Binary64.ofText? body).filter Binary64.isFinite

/-- The value of a plain scalar; none for an integer beyond 64 bits. -/
def Value.ofPlain? (t : List Char) : Option Value :=
  if t.isEmpty || isNull t then some .null
  else
    match bool? t, int64? t with
    | some b, _ => some (.bool b)
    | none, some n => some (.int n)
    | none, none =>
      if (int128? t).isSome then none
      else
        match (if isZeroPadded t then none else float? t) with
        | some x => some (.float x)
        | none => some (.str (String.ofList t))

def floatText : Binary64 → String
  | .nan => ".nan"
  | .inf neg => if neg then "-.inf" else ".inf"
  | x => String.ofList x.toPointed

def coreTag (name : String) : List UInt8 := coreLead ++ Text.encode name.toList

def isLocal (tag : List UInt8) : Bool := tag.head? == some 0x21

/-- The name of a tag of the document's own, without the mark it starts with and without a second
one; the mark alone is a name too. A tag that is no text has none. -/
def localTag? (tag : Option (List UInt8)) : Option String := do
  let tag ← tag
  if isLocal tag then
    match ← Text.decode? (tag.drop 1) with
    | [] | ['!'] => some "!"
    | '!' :: name => some (String.ofList name)
    | name => some (String.ofList name)
  else none

def Value.ofScalar? (tag : Option (List UInt8)) (style : Style) (t : List Char) : Option Value :=
  let text := Value.str (String.ofList t)
  match tag with
  | some tag =>
    if tag == coreTag "bool" then (bool? t).map .bool
    else if tag == coreTag "int" then (int64? t).map .int
    else if tag == coreTag "float" then (float? t).map .float
    else if tag == coreTag "null" then (if isNull t then some .null else none)
    else if isLocal tag && style == .plain then Value.ofPlain? t
    else some text
  | none => if style == .plain then Value.ofPlain? t else some text

mutual

/-- Whether two values are the same key. The order of a mapping does not count. -/
def Value.same : Value → Value → Bool
  | .null, .null => true
  | .bool a, .bool b => a == b
  | .int a, .int b => a == b
  | .float a, .float b => a == b || (a.isFinite && b.isFinite && !(a < b) && !(b < a))
  | .str a, .str b => a == b
  | .seq a, .seq b => sameItems a b
  | .map a, .map b => a.length == b.length && entriesAmong b a
  | .tagged s a, .tagged t b => s == t && a.same b
  | _, _ => false

def sameItems : List Value → List Value → Bool
  | [], [] => true
  | a :: as, b :: bs => a.same b && sameItems as bs
  | _, _ => false

def entriesAmong (others : List (Value × Value)) : List (Value × Value) → Bool
  | [] => true
  | (k, v) :: rest => others.any (fun e => k.same e.1 && v.same e.2) && entriesAmong others rest

end

mutual

def Value.hasDistinctKeys : Value → Bool
  | .seq items => distinctInItems items
  | .map entries => distinctInEntries entries
  | .tagged _ v => v.hasDistinctKeys
  | _ => true

def distinctInItems : List Value → Bool
  | [] => true
  | v :: rest => v.hasDistinctKeys && distinctInItems rest

def distinctInEntries : List (Value × Value) → Bool
  | [] => true
  | (k, v) :: rest =>
    k.hasDistinctKeys && v.hasDistinctKeys && !rest.any (·.1.same k) && distinctInEntries rest

end

def Value.untagged : Value → Value
  | .tagged _ v => v.untagged
  | v => v

mutual

def Value.isUntagged : Value → Bool
  | .seq items => untaggedItems items
  | .map entries => untaggedEntries entries
  | .tagged .. => false
  | _ => true

def untaggedItems : List Value → Bool
  | [] => true
  | v :: rest => v.isUntagged && untaggedItems rest

def untaggedEntries : List (Value × Value) → Bool
  | [] => true
  | (k, v) :: rest => k.isUntagged && v.isUntagged && untaggedEntries rest

end

end Concord.Yaml
