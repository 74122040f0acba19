import Concord.Shape.TypeExpr

/-! A type expression becomes a shape by looking up the names in it. A record is entered at most to
a given depth and never from within itself, and one level of generic parameters is filled in. -/
namespace Concord.Shape

abbrev Bindings := List (String × TypeExpr)

/-- What a shape is resolved for: its name, where it comes from, how deep it lies, and whether
generic parameters have been filled in around it. -/
structure Place where
  name : String
  origin : Origin
  depth : Nat
  instantiated : Bool

/-- The shape of a type expression, where `ofName` gives the shape of a named type. -/
def ofType (maxDepth : Nat) (ofName : String → List TypeExpr → Place → Shape) :
    TypeExpr → Place → Shape
  | .scalar kind, p => plain p.name kind p.origin
  | .formatted kind format, p => { plain p.name kind p.origin with format := some format }
  | .literals values, p => { plain p.name .enum p.origin with enumValues := values }
  | .map, p => obscure p.name p.origin
  | .unknown, p => obscure p.name p.origin
  | .array item, p =>
    let shape := plain p.name .array p.origin
    if maxDepth ≤ p.depth then { shape with confidence := .inferred }
    else
      { shape with
        items := some (ofType maxDepth ofName item { p with name := "[]", depth := p.depth + 1 }) }
  | .optional inner, p =>
    { ofType maxDepth ofName inner p with required := false, validated := false }
  | .named name args, p => ofName name args p

/-- The name of a type that is just a name, possibly optional; empty otherwise. -/
def rootName : TypeExpr → String
  | .named name [] => name
  | .optional inner => rootName inner
  | _ => ""

mutual

def substitute (bindings : Bindings) : TypeExpr → TypeExpr
  | .named name [] => (bindings.lookup name).getD (.named name [])
  | .named name (a :: args) => .named name (substitute bindings a :: substituteAll bindings args)
  | .array item => .array (substitute bindings item)
  | .optional inner => .optional (substitute bindings inner)
  | t => t

def substituteAll (bindings : Bindings) : List TypeExpr → List TypeExpr
  | [] => []
  | t :: ts => substitute bindings t :: substituteAll bindings ts

end

def withField (field : FieldDecl) (origin : Origin) (shape : Shape) : Shape :=
  { shape with
    name := field.wire
    origin
    declaredName := if field.wire != field.name then some field.name else shape.declaredName
    required := field.required && shape.required
    validated := field.validated
    format := field.format.or shape.format
    unit := field.unit.or shape.unit
    range := field.range.or shape.range }

/-- Takes the members of an embedded type into a record. Members that are there stay. -/
def splice (shape base : Shape) : Shape :=
  { shape with
    confidence :=
      if base.kind != .object || base.confidence == .inferred then .inferred else shape.confidence
    children :=
      shape.children ++ Keyed.firstsFrom (·.name) (shape.children.map (·.name)) base.children }

structure Visit where
  decl : TypeDecl
  fields : List FieldDecl
  place : Place
  visiting : List String
  frame : Bindings

namespace Visit

/-- Enters a record that is used with `args`. Its parameters are filled in unless that has been done
for a record around it. -/
def enter (decl : TypeDecl) (fields : List FieldDecl) (visiting : List String) (bindings : Bindings)
    (args : List TypeExpr) (p : Place) : Visit where
  decl
  fields
  place := { p with instantiated := p.instantiated || !args.isEmpty }
  visiting := decl.name :: visiting
  frame :=
    if p.instantiated || args.isEmpty then []
    else (decl.generics.zip (substituteAll bindings args)).reverse

def origin (x : Visit) (field : FieldDecl) : Origin :=
  ⟨⟨x.decl.location.file, field.line, field.column⟩, field.name⟩

/-- The place of the type of a field. The members of an embedded type lie as deep as the fields. -/
def placeOf (x : Visit) (field : FieldDecl) : Place :=
  if field.isEmbedded then { x.place with name := "" }
  else { x.place with name := field.wire, origin := x.origin field, depth := x.place.depth + 1 }

def leavesOpen (x : Visit) (field : FieldDecl) : Bool :=
  x.decl.generics.contains (rootName field.ty) && x.frame.isEmpty

def member (x : Visit) (field : FieldDecl) (base : Shape) : Shape :=
  withField field (x.origin field)
    (if x.leavesOpen field then obscure field.wire (x.origin field) else base)

def add (x : Visit) (base : FieldDecl → Shape) (shape : Shape) (field : FieldDecl) : Shape :=
  if field.isEmbedded then splice shape (base field)
  else { shape with children := shape.children ++ [x.member field (base field)] }

def bare (x : Visit) : Shape :=
  { plain x.place.name .object x.place.origin with typeName := some x.decl.name }

/-- The shape of the record, where `base` gives the shapes of the types of its fields. -/
def shape (x : Visit) (base : FieldDecl → Shape) : Shape := x.fields.foldl (x.add base) x.bare

end Visit

/-- The shape of a named type. `visiting` holds the declarations that are being entered; they differ
from one another, so a `fuel` beyond twice the size of the table is never used up. -/
def ofName (table : TypeTable) (maxDepth : Nat) :
    (fuel : Nat) → (visiting : List String) → Bindings → String → List TypeExpr → Place → Shape
  | 0, _, _, name, _, p => { obscure p.name p.origin with typeName := some name }
  | fuel + 1, visiting, bindings, name, args, p =>
    match bindings.lookup name with
    | some bound =>
      ofType maxDepth (ofName table maxDepth fuel visiting []) bound { p with instantiated := true }
    | none =>
      match table.get? name with
      | none => { obscure p.name p.origin with typeName := some name }
      | some decl =>
        match decl.body with
        | .enum values =>
          { plain p.name .enum p.origin with typeName := some decl.name, enumValues := values }
        | .synonym target =>
          if visiting.contains decl.name then
            { obscure p.name p.origin with typeName := some decl.name }
          else
            let inner := ofType maxDepth
              (ofName table maxDepth fuel (decl.name :: visiting) bindings) target p
            { inner with typeName := inner.typeName.or (some decl.name) }
        | .record fields =>
          let visit := Visit.enter decl fields visiting bindings args p
          if visiting.contains decl.name || maxDepth ≤ p.depth then
            { visit.bare with confidence := .inferred }
          else
            visit.shape fun field =>
              ofType maxDepth (ofName table maxDepth fuel visit.visiting visit.frame) field.ty
                (visit.placeOf field)

/-- The shape of a payload. A depth limit of zero counts as one. -/
def resolve (table : TypeTable) (maxDepth : Nat) : PayloadSource → Shape
  | .literal shape => shape
  | .typed ty origin =>
    let limit := max maxDepth 1
    ofType limit (ofName table limit (2 * table.size + 2) [] []) ty ⟨"", origin, 0, false⟩

end Concord.Shape
