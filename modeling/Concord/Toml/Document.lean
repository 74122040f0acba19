import Concord.Toml.Moment
import Concord.Toml.Number
import Concord.Toml.Tree

/-! A document is a sequence of lines: headers of tables and values under keys. All that is wrong
with a document is said in one way, by reading nothing. -/
namespace Concord.Toml

open Text

/-- How many parts a key may have, and how deep arrays and tables may lie in one another. -/
def depthLimit : Nat := 79

def isKeyChar (c : Char) : Bool := isAsciiAlphanumeric c || c == '-' || c == '_'

def keyPart? : List Char → Option (List Char × List Char)
  | '"' :: t => basic? ('"' :: t)
  | '\'' :: t => literal? ('\'' :: t)
  | t =>
    match t.takeWhile isKeyChar with
    | [] => none
    | part => some (part, t.dropWhile isKeyChar)

def keyParts? : (fuel : Nat) → List Char → Option (List String × List Char)
  | 0, _ => none
  | fuel + 1, t =>
    (keyPart? (dropSpace t)).bind fun (part, t) =>
      match dropSpace t with
      | '.' :: t => (keyParts? fuel t).map fun (parts, t) => (String.ofList part :: parts, t)
      | t => some ([String.ofList part], t)

def key? (t : List Char) : Option (List String × String × List Char) :=
  (keyParts? depthLimit t).bind fun (parts, t) =>
    parts.getLast?.map fun last => (parts.dropLast, last, t)

def items? (item : List Char → Option (Value × List Char)) :
    (fuel : Nat) → (acc : List Value) → List Char → Option (List Value × List Char)
  | 0, _, _ => none
  | fuel + 1, acc, t =>
    match dropLines? (t.length + 1) t with
    | none => none
    | some (']' :: t) => some (acc.reverse, t)
    | some t =>
      (item t).bind fun (v, t) =>
        match dropLines? (t.length + 1) t with
        | some (',' :: t) => items? item fuel (v :: acc) t
        | some (']' :: t) => some ((v :: acc).reverse, t)
        | _ => none

def members? (item : List Char → Option (Value × List Char)) :
    (fuel : Nat) → (acc : Entries) → List Char → Option (Entries × List Char)
  | 0, _, _ => none
  | fuel + 1, acc, t => do
    let (path, key, t) ← key? t
    let t ← afterLead? ['='] t
    let (v, t) ← item (dropSpace t)
    let acc ← acc.addValue path key v
    match dropSpace t with
    | ',' :: t => members? item fuel acc t
    | '\x7d' :: t => some (acc, t)
    | _ => none

/-- A value, and what follows it; `room` is how deep arrays and tables may lie in it. -/
def value? : (room : Nat) → List Char → Option (Value × List Char)
  | _, '"' :: t => (quoted? ('"' :: t)).map fun (s, t) => (.string (String.ofList s), t)
  | _, '\'' :: t => (quoted? ('\'' :: t)).map fun (s, t) => (.string (String.ofList s), t)
  | _, 't' :: 'r' :: 'u' :: 'e' :: t => some (.boolean true, t)
  | _, 'f' :: 'a' :: 'l' :: 's' :: 'e' :: t => some (.boolean false, t)
  | room + 1, '[' :: t =>
    (items? (value? room) (t.length + 1) [] t).map fun (vs, t) => (.array vs, t)
  | room + 1, '\x7b' :: t =>
    match dropSpace t with
    | '\x7d' :: t => some (.table [], t)
    | t => (members? (value? room) (t.length + 1) [] t).map fun (es, t) =>
        (.table (entriesToValues es), t)
  | _, t => (moment? t).or (number? t)

/-- The table that lines are being added to, and all tables before it. -/
structure Progress where
  root : Entries
  path : List String
  repeated : Bool
  current : Entries

namespace Progress

def start : Progress := ⟨[], [], false, []⟩

def inParent (path : List String) (change : String → Entries → Option Entries) (root : Entries) :
    Option Entries :=
  path.getLast?.bind fun key => root.modify false (fun _ es => change key es) path.dropLast .defined

def finished (p : Progress) : Option Entries :=
  if p.path.isEmpty then some p.current
  else if p.repeated then
    inParent p.path (fun key es =>
      match es.lookup key with
      | none => some (es ++ [(key, .tables [p.current])])
      | some (.tables all) => some (es.set key (.tables (all ++ [p.current])))
      | some _ => none) p.root
  else
    inParent p.path (fun key es =>
      match es.lookup key with
      | none => some (es ++ [(key, .table .defined p.current)])
      | some _ => none) p.root

/-- What the table of a header holds before its own lines, seen from the table at the start of the
path: that of an implied table, and nothing if there is none. None if the header may not stand. -/
def held? : (path : List String) → Entries → Option Entries
  | [], _ => none
  | [key], es =>
    match es.lookup key with
    | none => some []
    | some (.table .implied inner) => some inner
    | some _ => none
  | key :: path, es =>
    match es.lookup key with
    | none => some []
    | some (.table _ inner) => held? path inner
    | some (.tables all) => all.getLast?.bind (held? path)
    | some (.value _) => none

def openTable (p : Progress) (path : List String) : Option Progress := do
  let root ← p.finished
  let current ← held? path root
  let root ← inParent path (fun key es => some (es.filter (·.1 != key))) root
  some ⟨root, path, false, current⟩

def openRepeated (p : Progress) (path : List String) : Option Progress := do
  let root ← p.finished
  let root ← inParent path (fun key es =>
    match es.lookup key with
    | none => some (es ++ [(key, .tables [])])
    | some (.tables _) => some es
    | some _ => none) root
  some ⟨root, path, true, []⟩

def addValue (p : Progress) (path : List String) (key : String) (v : Value) : Option Progress :=
  (p.current.addValue path key v).map fun current => { p with current }

end Progress

def lines? : (fuel : Nat) → Progress → List Char → Option Progress
  | 0, _, _ => none
  | fuel + 1, p, t =>
    match dropSpace t with
    | [] => some p
    | '#' :: t => (endOfLine? ('#' :: t)).bind (lines? fuel p)
    | '\n' :: t => lines? fuel p t
    | '\r' :: t => (newline? ('\r' :: t)).bind (lines? fuel p)
    | '[' :: '[' :: t => do
      let (parts, t) ← keyParts? depthLimit t
      let t ← afterLead? [']', ']'] t
      let t ← endOfLine? t
      let p ← p.openRepeated parts
      lines? fuel p t
    | '[' :: t => do
      let (parts, t) ← keyParts? depthLimit t
      let t ← afterLead? [']'] t
      let t ← endOfLine? t
      let p ← p.openTable parts
      lines? fuel p t
    | t => do
      let (path, key, t) ← key? t
      let t ← afterLead? ['='] t
      let (v, t) ← value? depthLimit (dropSpace t)
      let t ← endOfLine? t
      let p ← p.addValue path key v
      lines? fuel p t

def read? (text : String) : Option (List (String × Value)) :=
  let t := match text.toList with
    | '\ufeff' :: t => t
    | t => t
  ((lines? (t.length + 1) .start t).bind Progress.finished).map entriesToValues

end Concord.Toml
