import Concord.Binding.Basic
import Concord.FieldPath
import Concord.Finding.Basic
import Concord.Manifest.Schema

/-! Fields of one class of quantities use one unit, also where no convention says which. -/
namespace Concord.Convention

open Quantity

/-- A field of the manifest with a unit, or with a format that says what it measures. -/
structure UnitUse where
  cls : QuantityClass
  unit : String
  payload : PayloadKind
  contract : String
  endpoint : Endpoint
  field : String
  path : String

mutual

/-- The fields of a schema with their paths: the field itself, its members, and the members of its
items. -/
def fieldsWithin (parent : String) : FieldSchema → List (FieldSchema × String)
  | field@⟨name, _, _, _, _, _, _, children, items, _, _⟩ =>
    let path := FieldPath.join parent name
    (field, path) :: fieldsAmong path children ++ fieldsOfItems (FieldPath.join path "[]") items

def fieldsAmong (parent : String) : List FieldSchema → List (FieldSchema × String)
  | [] => []
  | field :: rest => fieldsWithin parent field ++ fieldsAmong parent rest

def fieldsOfItems (parent : String) : Option FieldSchema → List (FieldSchema × String)
  | none => []
  | some ⟨_, _, _, _, _, _, _, children, _, _, _⟩ => fieldsAmong parent children

end

/-- The class and the canonical unit, or else the canonical format, of a field. -/
def measure? (field : FieldSchema) : Option (QuantityClass × String) :=
  (fieldClass? field.unit field.format).bind fun cls =>
    match field.unit, field.format with
    | some unit, _ => some (cls, canonicalUnit unit)
    | none, some format => some (cls, (canonicalFormat format).1)
    | none, none => none

def usesIn (contract : Contract) (endpoint : Endpoint) (kind : PayloadKind) (fields : Payload) :
    List UnitUse :=
  (fieldsAmong "" fields).filterMap fun (field, path) =>
    (measure? field).map fun (cls, unit) =>
      ⟨cls, unit, kind, contract.id, endpoint, field.name, path⟩

def unitUses (m : Manifest) : List UnitUse :=
  m.contracts.flatMap fun c => c.endpoints.flatMap fun e =>
    (e.request.map (usesIn c e .request)).getD [] ++
      e.responses.flatMap fun r => usesIn c e .response r.2

/-- The unit with the most uses, the first in the alphabet of several. `units` are in ascending
order. -/
def mostUsed? (uses : List UnitUse) (units : List String) : Option String :=
  let count := fun unit => uses.countP (·.unit == unit)
  units.foldl (fun best unit =>
    match best with
    | some b => if count b < count unit then some unit else some b
    | none => some unit) none

/-- The fields of a class whose unit is not the one that most fields of the class have. A body that
several status codes share counts once. -/
def unitMismatchesOf (m : Manifest) (cls : QuantityClass) : List Mismatch :=
  let uses := Keyed.firsts (fun u => (u.contract, u.endpoint.id, u.payload, u.path))
    ((unitUses m).filter (·.cls = cls))
  let units := Text.sortedUnique (uses.map (·.unit))
  if units.length < 2 then []
  else
    match mostUsed? uses units with
    | none => []
    | some dominant =>
      (Keyed.firsts (fun u => (u.contract, u.endpoint.id, u.path))
        (uses.filter (·.unit != dominant))).map fun u => {
          contract := u.contract
          endpoint := u.endpoint.id
          field := u.path
          kind := .unit
          expected := s!"{dominant} (most {cls.display} fields)"
          observed := s!"'{u.unit}' declared in {u.contract} with no {cls.display} convention"
          rule := .strictnessParity
          severity := .warning
          location := m.locate [u.contract, u.endpoint.path, u.field] }

def unitMismatches (m : Manifest) : List Mismatch :=
  (QuantityClass.all.filter fun c => (m.conventions.forClass? c).isNone).flatMap
    (unitMismatchesOf m)

end Concord.Convention
