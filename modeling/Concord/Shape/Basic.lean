import Concord.Bounds
import Concord.Keyed
import Concord.Location
import Concord.Text.Sorted

/-! The shape of a payload as it is found in code: a tree of named fields with what is known about
each. -/
namespace Concord

inductive ShapeKind
  | string
  | integer
  | number
  | numeric
  | boolean
  | object
  | array
  | enum
  | unknown
  deriving DecidableEq, Repr, Inhabited

namespace ShapeKind

def all : List ShapeKind :=
  [.string, .integer, .number, .numeric, .boolean, .object, .array, .enum, .unknown]

def display : ShapeKind → String
  | .string => "string"
  | .integer => "integer"
  | .number => "number"
  | .numeric => "numeric"
  | .boolean => "boolean"
  | .object => "object"
  | .array => "array"
  | .enum => "enum"
  | .unknown => "unknown"

def ofName? (name : String) : Option ShapeKind := all.find? (·.display == name)

end ShapeKind

inductive Confidence
  /-- Every member is known from a declaration or a literal. -/
  | declared
  /-- Members may be missing: a spread, a map, a type that is unknown or cut off. -/
  | inferred
  deriving DecidableEq, Repr, Inhabited

structure Origin where
  location : Location
  text : String
  deriving DecidableEq, Repr, Inhabited

structure Shape where
  /-- The name on the wire: `[]` for the items of an array, empty for a whole payload. -/
  name : String
  /-- The identifier in the source, if it is written differently on the wire. -/
  declaredName : Option String
  typeName : Option String
  kind : ShapeKind
  format : Option String
  unit : Option String
  range : Option Range
  enumValues : List String
  required : Bool
  validated : Bool
  children : List Shape
  items : Option Shape
  origin : Origin
  confidence : Confidence
  deriving Repr, Inhabited

namespace Shape

def plain (name : String) (kind : ShapeKind) (origin : Origin) : Shape where
  name
  declaredName := none
  typeName := none
  kind
  format := none
  unit := none
  range := none
  enumValues := []
  required := true
  validated := false
  children := []
  items := none
  origin
  confidence := .declared

def obscure (name : String) (origin : Origin) : Shape :=
  { plain name .unknown origin with confidence := .inferred }

def child? (s : Shape) (name : String) : Option Shape := s.children.find? (·.name == name)

mutual

/-- The union of two shapes of one payload. Members of either are kept, enum values are combined in
ascending order, and what `a` does not tell is taken from the other. -/
def merge (a : Shape) : Shape → Shape
  | ⟨_, declaredName, typeName, kind, format, unit, range, enumValues, required, validated, children,
      items, _, confidence⟩ =>
    { a with
      kind := if a.kind = .unknown then kind else a.kind
      typeName := a.typeName.or typeName
      declaredName := a.declaredName.or declaredName
      format := a.format.or format
      unit := a.unit.or unit
      range := a.range.or range
      required := a.required || required
      validated := a.validated || validated
      confidence := if confidence = .declared then .declared else a.confidence
      enumValues := Text.sortedUnique (a.enumValues ++ enumValues)
      children := mergeChildren a.children children
      items := mergeItems a.items items }

/-- The members of both; a member of `mine` takes in the one of the same name. -/
def mergeChildren (mine : List Shape) : List Shape → List Shape
  | [] => mine
  | c :: cs => mergeChildren (Keyed.upsert (·.name == c.name) (fun m => merge m c) c mine) cs

def mergeItems (mine : Option Shape) : Option Shape → Option Shape
  | none => mine
  | some theirs =>
    match mine with
    | some mine => some (merge mine theirs)
    | none => some theirs

end

end Shape

end Concord
