import Concord.Project.Access
import Concord.Text.Utf8

/-! # Trees of files in memory -/
namespace Concord

open Text

structure TreeFile where
  path : List String
  text : Option String
  deriving DecidableEq, Repr

structure Tree where
  files : List TreeFile
  deriving Repr

def pathParts (path : String) : List String := (split '/' path.toList).map String.ofList

def joinParts (parts : List String) : String := "/".intercalate parts

def TreeFile.ofText (path text : String) : TreeFile :=
  ⟨(pathParts path).filter fun p => p != "" && p != ".", some text⟩

def TreeFile.ofBytes (path : String) (bytes : List UInt8) : TreeFile :=
  ⟨(ofText path "").path, (decode? bytes).map String.ofList⟩

namespace Tree

def file? (t : Tree) (path : List String) : Option TreeFile := t.files.find? (·.path == path)

def isDirectory (t : Tree) (path : List String) : Bool :=
  path.isEmpty || t.files.any fun f => path.isPrefixOf f.path && path.length < f.path.length

def insert (t : Tree) (f : TreeFile) : Tree := ⟨t.files.filter (·.path != f.path) ++ [f]⟩

/-- Follows the parts of a path, one directory after the other. A way out of the tree leads
nowhere. -/
def follow (t : Tree) (here : List String) : List String → Except ReadFailure (List String)
  | [] => .ok here
  | part :: rest =>
    if (t.file? here).isSome then .error .notDirectory
    else if part == "" || part == "." then t.follow here rest
    else if part == ".." then
      if here.isEmpty then .error .missing else t.follow here.dropLast rest
    else
      let next := here ++ [part]
      if (t.file? next).isSome || t.isDirectory next then t.follow next rest else .error .missing

def resolve (t : Tree) (path : String) : Except ReadFailure (List String) :=
  if path.toList.head? == some '/' then .error .missing else t.follow [] (pathParts path)

def read (t : Tree) (path : String) : Except ReadFailure String :=
  match t.resolve path with
  | .error e => .error e
  | .ok parts =>
    match t.file? parts with
    | none => .error .isDirectory
    | some f =>
      match f.text with
      | none => .error .notText
      | some text => .ok text

def present (t : Tree) (path : String) : Bool :=
  match t.resolve path with
  | .ok _ => true
  | .error _ => false

def filesBelow (t : Tree) (root : String) (exclude : List String) : List FoundFile :=
  match t.resolve root with
  | .error _ => []
  | .ok base =>
    (t.files.filter fun f => base.isPrefixOf f.path).filterMap fun f =>
      let relative := f.path.drop base.length
      if relative.dropLast.any exclude.contains then none
      else some ⟨joinParts f.path, joinParts relative⟩

/-- A tree as surroundings, beside the user's own configuration. That has a path that leads nowhere
in the tree. -/
def access (t : Tree) (home : Option TreeFile) : Access Id where
  read path :=
    if path == homePath then (home.map fun f => f.text.elim (.error .notText) .ok).getD (.error .missing)
    else t.read path
  present path := if path == homePath then home.isSome else t.present path
  filesBelow := t.filesBelow
  homeConfiguration := some homePath
where
  homePath : String := "/home"

end Tree

end Concord
