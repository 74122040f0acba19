import Concord.Yaml.Value

/-! A view is a place in a document that is read as a record, a list, a text or a value. Reading
fails where the document has another form. References are followed, each time anew, but not more
often than the size of the document warrants, so a short document cannot stand for an endless value.
-/
namespace Concord.Yaml

/-- Reads a part of a document. The state is the number of references that may still be followed. -/
abbrev Decoder := StateT Nat Option

namespace Decoder

def fail {α : Type} : Decoder α := fun _ => none

def lift {α : Type} (x : Option α) : Decoder α := fun n => x.map (·, n)

def follow : Decoder Unit
  | 0 => none
  | n + 1 => some ((), n)

end Decoder

structure View where
  node : Option Node
  anchored : List (Nat × Node)
  depth : Nat
  deriving Inhabited

def maxNesting : Nat := 128

def Document.view (d : Document) : View := ⟨d.root, d.anchored, maxNesting⟩

/-- How often references are followed in all: a hundred times for each part of the document. -/
def Document.maxFollowed (d : Document) : Nat := 100 * (d.root.map Node.size).getD 1

def Document.decode? {α : Type} (d : Document) (read : View → Decoder α) : Option α :=
  ((read d.view).run d.maxFollowed).map (·.1)

namespace View

def resolve (v : View) : Decoder View :=
  match v.node with
  | some (.anchored _ n) => pure { v with node := some n }
  | some (.reference k) => do
    Decoder.follow
    let n ← Decoder.lift (v.anchored.lookup k)
    return { v with node := some n }
  | _ => pure v

def text (v : View) : Decoder String := do
  match (← v.resolve).node with
  | some (.scalar _ _ t) => return String.ofList t
  | _ => Decoder.fail

/-- Whether nothing is written at a resolved place, or null; fails where null is announced and
something else is written. -/
def isNull? (v : View) : Option Bool :=
  match v.node with
  | none => some true
  | some (.scalar tag .plain t) =>
    match tag with
    | some tag =>
      if tag == coreTag "null" then (if isNull t then some true else none) else some false
    | none => some (t.isEmpty || isNull t)
  | some _ => some false

def bareText (v : View) (tag : String) : Decoder (List Char) := do
  match (← v.resolve).node with
  | some (.scalar _ .plain t) => return t
  | some (.scalar (some g) .literal t) => if g == coreTag tag then return t else Decoder.fail
  | _ => Decoder.fail

def flag (v : View) : Decoder Bool := do Decoder.lift (bool? (← v.bareText "bool"))

def integer (v : View) : Decoder Int := do
  Decoder.lift ((int64? (← v.bareText "int")).filter (· < Int.pow 2 63))

def isEmpty (v : View) : Bool :=
  match v.node with
  | none => true
  | some (.scalar _ .plain []) => true
  | _ => false

def inside (v : View) (n : Node) : View := ⟨some n, v.anchored, v.depth - 1⟩

def items (v : View) : Decoder (List View) := do
  let v ← v.resolve
  match v.node with
  | some (.sequence _ items) =>
    if v.depth == 0 then Decoder.fail else return items.map v.inside
  | _ => if v.isEmpty then return [] else Decoder.fail

def entries (v : View) : Decoder (List (View × View)) := do
  let v ← v.resolve
  match v.node with
  | some (.mapping _ entries) =>
    if v.depth == 0 then Decoder.fail
    else return entries.map fun e => (v.inside e.1, v.inside e.2)
  | _ => if v.isEmpty then return [] else Decoder.fail

def list {α : Type} (read : View → Decoder α) (v : View) : Decoder (List α) := do
  (← v.items).mapM read

def optional {α : Type} (read : View → Decoder α) (v : View) : Decoder (Option α) := do
  let v ← v.resolve
  if ← Decoder.lift v.isNull? then return none else return some (← read v)

def tagged (tag : Option (List UInt8)) (x : Value) : Value :=
  match localTag? tag with
  | some name => .tagged name x
  | none => x

def contentWithin : (fuel : Nat) → View → Decoder Value
  | 0, _ => Decoder.fail
  | fuel + 1, v => do
    let v ← v.resolve
    match v.node with
    | none => return .null
    | some (.scalar tag style t) =>
      if (localTag? tag).isSome then return tagged tag (← Decoder.lift (Value.ofScalar? none style t))
      else Decoder.lift (Value.ofScalar? tag style t)
    | some (.sequence tag _) => return tagged tag (.seq (← (← v.items).mapM (contentWithin fuel)))
    | some (.mapping tag _) =>
      let entries ← (← v.entries).mapM fun e => do
        let k ← contentWithin fuel e.1
        let x ← contentWithin fuel e.2
        return (k, x)
      return tagged tag (.map entries)
    | some _ => Decoder.fail

def content (v : View) : Decoder Value := contentWithin (v.depth + 2) v

def value (v : View) : Decoder Value := do
  let x ← v.content
  if x.hasDistinctKeys then return x else Decoder.fail

def keyText (v : View) : Decoder String := do
  match ← v.value with
  | .str s => return s
  | .int n => return toString n
  | .float x => return floatText x
  | .bool b => return if b then "true" else "false"
  | _ => Decoder.fail

def members {α : Type} (read : View → Decoder α) (v : View) : Decoder (List (String × α)) := do
  (← v.entries).mapM fun e => do
    let k ← e.1.keyText
    let x ← read e.2
    return (k, x)

end View

abbrev Fields := List (String × View)

/-- The known members of a mapping; none may occur twice, and others are skipped. -/
def View.fields (v : View) (known : List String) : Decoder Fields := do
  let named ← (← v.entries).mapM fun e => return (← e.1.text, e.2)
  let fields := named.filter fun f => known.contains f.1
  if fields.any fun f => 1 < fields.countP (·.1 == f.1) then Decoder.fail else return fields

namespace Fields

variable {α : Type}

def required (fs : Fields) (name : String) (read : View → Decoder α) : Decoder α :=
  match fs.lookup name with
  | none => Decoder.fail
  | some v => read v

def optional (fs : Fields) (name : String) (read : View → Decoder α) : Decoder (Option α) :=
  match fs.lookup name with
  | none => return none
  | some v => v.optional read

def defaulted (fs : Fields) (name : String) (default : α) (read : View → Decoder α) : Decoder α :=
  match fs.lookup name with
  | none => return default
  | some v => read v

end Fields

end Concord.Yaml
