import Concord.Yaml.Stream

/-! The tree of a document. Anchored nodes are numbered, and a reference holds the number of its
node. -/
namespace Concord.Yaml

inductive Node
  | scalar (tag : Option (List UInt8)) (style : Style) (text : List Char)
  | sequence (tag : Option (List UInt8)) (items : List Node)
  | mapping (tag : Option (List UInt8)) (entries : List (Node × Node))
  | reference (number : Nat)
  /-- A node that aliases may stand for. -/
  | anchored (number : Nat) (node : Node)
  deriving Repr, Inhabited

def Node.nothing : Node := .scalar none .plain []

structure Reading where
  tokens : List Token
  anchors : List (List Char × Nat)
  handles : List (List Char × List UInt8)

/-- A part of a document; it fails if the tokens do not form one. -/
abbrev Reader := StateT Reading Option

namespace Reader

def peek : Reader Token := do return ((← get).tokens.head?).getD .streamEnd

def drop : Reader Unit := modify fun r => { r with tokens := r.tokens.drop 1 }

def fail {α : Type} : Reader α := fun _ => none

def takes (t : Token) : Reader Bool := do
  if (← peek) == t then drop; return true else return false

/-- Numbers an anchor: the number is the count of distinct names before it. -/
def number (name : List Char) : Reader Nat := do
  let r ← get
  let n := r.anchors.length
  set { r with anchors := (name, n) :: r.anchors.filter (·.1 != name) }
  return n

def anchor? : Reader (Option (List Char)) := do
  match ← peek with
  | .anchor name => drop; return some name
  | _ => return none

def tag? : Reader (Option (List UInt8)) := do
  match ← peek with
  | .tag handle suffix =>
    drop
    if handle.isEmpty then return some suffix
    else
      match (← get).handles.lookup handle with
      | some lead => return some (lead ++ suffix)
      | none => fail
  | _ => return none

def properties : Reader (Option (List Char) × Option (List UInt8)) := do
  match ← anchor? with
  | some name => return (some name, ← tag?)
  | none =>
    let tag ← tag?
    let name ← if tag.isSome then anchor? else pure none
    return (name, tag)

end Reader

open Reader

def before (ts : List Token) : Reader Bool := do return ts.contains (← peek)

def emptyNode (name : Option (List Char)) (tag : Option (List UInt8)) : Reader Node :=
  if name.isSome || tag.isSome then pure (.scalar tag .plain []) else fail

mutual

/-- A node. Block collections are read only if `block`, and a sequence without indentation only if
`indentless`. Every token is read a bounded number of times, so their count bounds `fuel`. -/
def nodeWithin : (fuel : Nat) → (block indentless : Bool) → Reader Node
  | 0, _, _ => fail
  | fuel + 1, block, indentless => do
    match ← peek with
    | .reference name =>
      drop
      match (← get).anchors.lookup name with
      | some n => return .reference n
      | none => fail
    | _ =>
      let (name, tag) ← properties
      let n ← name.mapM number
      let content ← match ← peek with
        | .blockEntry =>
          if indentless then pure (Node.sequence tag (← indentlessItems fuel)) else emptyNode name tag
        | .scalar style text => drop; pure (Node.scalar tag style text)
        | .flowSequence => drop; pure (Node.sequence tag (← flowItems fuel true))
        | .flowMapping => drop; pure (Node.mapping tag (← flowEntries fuel true))
        | .blockSequence =>
          if block then drop; pure (Node.sequence tag (← blockItems fuel)) else emptyNode name tag
        | .blockMapping =>
          if block then drop; pure (Node.mapping tag (← blockEntries fuel)) else emptyNode name tag
        | _ => emptyNode name tag
      return match n with
        | some n => .anchored n content
        | none => content

def nodeBefore : (fuel : Nat) → (ends : List Token) → (block indentless : Bool) → Reader Node
  | 0, _, _, _ => fail
  | fuel + 1, ends, block, indentless => do
    if ← before ends then return .nothing else nodeWithin fuel block indentless

def blockItems : (fuel : Nat) → Reader (List Node)
  | 0 => fail
  | fuel + 1 => do
    if ← takes .blockEntry then
      let item ← nodeBefore fuel [.blockEntry, .blockEnd] true false
      return item :: (← blockItems fuel)
    else if ← takes .blockEnd then return []
    else fail

def indentlessItems : (fuel : Nat) → Reader (List Node)
  | 0 => fail
  | fuel + 1 => do
    if ← takes .blockEntry then
      let item ← nodeBefore fuel [.blockEntry, .key, .value, .blockEnd] true false
      return item :: (← indentlessItems fuel)
    else return []

def blockEntries : (fuel : Nat) → Reader (List (Node × Node))
  | 0 => fail
  | fuel + 1 => do
    if ← takes .key then
      let k ← nodeBefore fuel [.key, .value, .blockEnd] true true
      let v ←
        if ← takes .value then nodeBefore fuel [.key, .value, .blockEnd] true true
        else pure .nothing
      return (k, v) :: (← blockEntries fuel)
    else if ← takes .blockEnd then return []
    else fail

def flowPair : (fuel : Nat) → Reader Node
  | 0 => fail
  | fuel + 1 => do
    let k ←
      if ← before [.value, .flowEntry, .flowSequenceEnd] then drop; pure Node.nothing
      else nodeWithin fuel false false
    let v ←
      if ← takes .value then nodeBefore fuel [.flowEntry, .flowSequenceEnd] false false
      else pure .nothing
    return .mapping none [(k, v)]

def flowItems : (fuel : Nat) → (first : Bool) → Reader (List Node)
  | 0, _ => fail
  | fuel + 1, first => do
    if ← takes .flowSequenceEnd then return []
    else
      let separated ← if first then pure true else takes .flowEntry
      if !separated then fail
      else if ← takes .flowSequenceEnd then return []
      else
        let item ← if ← takes .key then flowPair fuel else nodeWithin fuel false false
        return item :: (← flowItems fuel false)

def flowEntries : (fuel : Nat) → (first : Bool) → Reader (List (Node × Node))
  | 0, _ => fail
  | fuel + 1, first => do
    if ← takes .flowMappingEnd then return []
    else
      let separated ← if first then pure true else takes .flowEntry
      if !separated then fail
      else if ← takes .flowMappingEnd then return []
      else if ← takes .key then
        let ends := [Token.value, .flowEntry, .flowMappingEnd]
        let k ← nodeBefore fuel ends false false
        let v ←
          if ← takes .value then nodeBefore fuel [.flowEntry, .flowMappingEnd] false false
          else pure .nothing
        return (k, v) :: (← flowEntries fuel false)
      else
        let k ← nodeWithin fuel false false
        return (k, .nothing) :: (← flowEntries fuel false)

end

def coreLead : List UInt8 := Text.encode "tag:yaml.org,2002:".toList

/-- The directives before a document: at most one version, which must be 1.1 or 1.2, and no handle
twice. The tokens left bound `fuel`. -/
def directives : (fuel : Nat) → (versioned : Bool) → (named : List (List Char)) → Reader Unit
  | 0, _, _ => fail
  | fuel + 1, versioned, named => do
    match ← peek with
    | .version major minor =>
      drop
      if versioned || major != 1 || !(minor == 1 || minor == 2) then fail
      else directives fuel true named
    | .tagHandle handle lead =>
      drop
      if named.contains handle then fail
      else
        modify fun r => { r with handles := (handle, lead) :: r.handles }
        directives fuel versioned (handle :: named)
    | _ => return ()

def documentWithin (fuel : Nat) : Reader (Option Node) := do
  let root ← match ← peek with
    | .streamEnd => pure none
    | .version _ _ | .tagHandle _ _ | .documentStart => do
      directives fuel false []
      if ← takes .documentStart then
        match ← peek with
        | .version _ _ | .tagHandle _ _ | .documentStart | .documentEnd | .streamEnd =>
          pure (some Node.nothing)
        | _ => some <$> nodeWithin fuel true false
      else fail
    | _ => some <$> nodeWithin fuel true false
  modify fun r => { r with tokens := r.tokens.dropWhile (· == .documentEnd) }
  if (← peek) == .streamEnd then return root else fail

mutual

def Node.anchorsIn : Node → List (Nat × Node)
  | .scalar .. => []
  | .reference _ => []
  | .anchored n node => (n, node) :: node.anchorsIn
  | .sequence _ items => anchorsInItems items
  | .mapping _ entries => anchorsInEntries entries

def anchorsInItems : List Node → List (Nat × Node)
  | [] => []
  | a :: rest => a.anchorsIn ++ anchorsInItems rest

def anchorsInEntries : List (Node × Node) → List (Nat × Node)
  | [] => []
  | (k, v) :: rest => k.anchorsIn ++ v.anchorsIn ++ anchorsInEntries rest

end

mutual

/-- The number of scalars, of references, and of starts and ends of collections. -/
def Node.size : Node → Nat
  | .scalar .. => 1
  | .reference _ => 1
  | .anchored _ node => node.size
  | .sequence _ items => itemsSize items + 2
  | .mapping _ entries => entriesSize entries + 2

def itemsSize : List Node → Nat
  | [] => 0
  | a :: rest => a.size + itemsSize rest

def entriesSize : List (Node × Node) → Nat
  | [] => 0
  | (k, v) :: rest => k.size + v.size + entriesSize rest

end

structure Document where
  root : Option Node
  /-- Of several nodes of one number the first in this list counts. -/
  anchored : List (Nat × Node)
  deriving Repr, Inhabited

def Document.read? (text : List Char) : Option Document := do
  let ts ← tokens? text
  let start : Reading := ⟨ts, [], [(['!'], Text.encode ['!']), (['!', '!'], coreLead)]⟩
  let (root, _) ← (documentWithin (4 * ts.length + 8)).run start
  some ⟨root, ((root.map Node.anchorsIn).getD []).reverse⟩

end Concord.Yaml
