import Concord.Shape.Basic

/-! Types as a source writes them, before their names are resolved. -/
namespace Concord

inductive TypeExpr
  | scalar (kind : ShapeKind)
  | formatted (kind : ShapeKind) (format : String)
  | named (name : String) (args : List TypeExpr)
  | array (item : TypeExpr)
  | optional (inner : TypeExpr)
  | map
  | literals (values : List String)
  | unknown
  deriving Repr, Inhabited

structure FieldDecl where
  name : String
  wireName : Option String
  ty : TypeExpr
  required : Bool
  validated : Bool
  format : Option String
  unit : Option String
  range : Option Range
  line : Nat
  column : Nat
  deriving Repr, Inhabited

namespace FieldDecl

def plain (name : String) (ty : TypeExpr) (place : Location) : FieldDecl where
  name
  wireName := none
  ty
  required := true
  validated := false
  format := none
  unit := none
  range := none
  line := place.line
  column := place.column

def embeddedName : String := "..."

def embedded (ty : TypeExpr) (place : Location) : FieldDecl := plain embeddedName ty place

def isEmbedded (f : FieldDecl) : Bool := f.name == embeddedName

def wire (f : FieldDecl) : String := f.wireName.getD f.name

end FieldDecl

inductive TypeBody
  | record (fields : List FieldDecl)
  | synonym (target : TypeExpr)
  | enum (values : List String)
  deriving Repr, Inhabited

structure TypeDecl where
  name : String
  generics : List String
  body : TypeBody
  location : Location
  deriving Repr, Inhabited

inductive PayloadSource
  | typed (ty : TypeExpr) (origin : Origin)
  | literal (shape : Shape)
  deriving Repr, Inhabited

/-- The declarations that are visible to one service, each name once. -/
structure TypeTable where
  decls : List TypeDecl
  deriving Repr, Inhabited

namespace TypeTable

def empty : TypeTable := ⟨[]⟩

def insert (t : TypeTable) (d : TypeDecl) : TypeTable :=
  if t.decls.any (·.name == d.name) then t else ⟨t.decls ++ [d]⟩

def ofList (ds : List TypeDecl) : TypeTable := ds.foldl insert empty

def bareName (name : String) : String :=
  String.ofList (((name.toList.reverse).takeWhile fun c => c != '.' && c != ':').reverse)

def get? (t : TypeTable) (name : String) : Option TypeDecl := t.decls.find? (·.name == bareName name)

def size (t : TypeTable) : Nat := t.decls.length

end TypeTable

end Concord
