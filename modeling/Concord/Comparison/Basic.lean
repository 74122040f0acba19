import Concord.Binding.Basic
import Concord.Finding.Basic
import Concord.Manifest.Schema
import Concord.Quantity.Identifier

/-! A payload of an endpoint is compared with the shapes of all who write or read it. -/
namespace Concord.Comparison

structure Exchange where
  conventions : Conventions
  contract : String
  endpoint : String
  payload : PayloadKind

def Exchange.rule (x : Exchange) : Rule :=
  match x.payload with
  | .request => .requestShape
  | .response => .responseShape

/-- One who writes or reads the payload, with the shape at the place of the walk. -/
structure Participant where
  binding : Binding
  supplier : Bool
  shape : Shape

namespace Participant

def inside (p : Participant) (shape : Shape) : Participant := { p with shape }

def describe (p : Participant) : String := p.binding.describe

def verb (p : Participant) : String := if p.supplier then "sends" else "reads"

def location (p : Participant) : Location := p.shape.origin.location

def service (p : Participant) : String := p.binding.key.service

def names (p : Participant) (field : FieldSchema) : List String :=
  field.name :: p.shape.name :: p.shape.declaredName.toList

def evidenceOn (p : Participant) (names : List String) : List Evidence :=
  p.binding.evidence.filter fun e => e.atBoundary && Identifier.mentions e.field names

end Participant

def Exchange.error (x : Exchange) (kind : MismatchKind) (rule : Rule) (path : String)
    (location : Location) (expected observed : String) : Mismatch where
  contract := x.contract
  endpoint := x.endpoint
  field := path
  kind
  expected
  observed
  rule
  severity := .error
  location

def Exchange.disparity (x : Exchange) (kind : MismatchKind) (path : String) (location : Location)
    (expected observed : String) : Mismatch :=
  x.error kind .strictnessParity path location expected observed

end Concord.Comparison
