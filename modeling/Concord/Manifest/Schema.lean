import Concord.Casing
import Concord.Boundary.Basic

/-! The services of a system, the contracts between them, and the conventions they share. -/
namespace Concord

open Text

inductive FieldType
  | string
  | integer
  | number
  | boolean
  | object
  | array
  | enum
  deriving DecidableEq, Repr, Inhabited

namespace FieldType

def isScalar (t : FieldType) : Bool := t != .object && t != .array

def display : FieldType → String
  | .string => "string"
  | .integer => "integer"
  | .number => "number"
  | .boolean => "boolean"
  | .object => "object"
  | .array => "array"
  | .enum => "enum"

def ofName? (name : String) : Option FieldType :=
  match String.ofList (asciiLower (trim name.toList)) with
  | "string" | "str" => some .string
  | "integer" | "int" => some .integer
  | "number" | "float" | "double" | "decimal" => some .number
  | "boolean" | "bool" => some .boolean
  | "object" => some .object
  | "array" | "list" => some .array
  | "enum" => some .enum
  | _ => none

end FieldType

structure FieldSchema where
  name : String
  type : FieldType
  format : Option String
  unit : Option String
  range : Option Range
  enumValues : List String
  required : Bool
  children : List FieldSchema
  items : Option FieldSchema
  ref : Option String
  truncated : Bool
  deriving Repr, Inhabited

abbrev Payload := List FieldSchema

structure Endpoint where
  method : String
  path : String
  request : Option Payload
  responses : List (Nat × Payload)
  statusCodes : List Nat
  deriving Repr, Inhabited

namespace Endpoint

def id (e : Endpoint) : String := e.method ++ " " ++ e.path

def success? (e : Endpoint) : Option Payload :=
  (e.responses.find? fun r => 200 ≤ r.1 && r.1 < 300).map (·.2)

end Endpoint

structure Service where
  id : String
  language : Language
  baseUrl : Option String
  root : Option String
  deriving Repr, Inhabited

/-- The path of the base address, without slashes at its end; none if there is none. -/
def Service.basePath? (s : Service) : Option String := do
  let url := (← s.baseUrl).toList
  let rest := ((cut? [':', '/', '/'] url).map (·.2)).getD url
  let path := dropEndWhile (· == '/') (rest.dropWhile (· != '/'))
  if path.isEmpty then none else some (String.ofList path)

inductive Direction
  | outbound
  | inbound
  deriving DecidableEq, Repr, Inhabited

def Direction.display : Direction → String
  | .outbound => "outbound"
  | .inbound => "inbound"

structure Verification where
  method : String
  header : String
  timestampHeader : Option String
  toleranceSeconds : Option Nat
  deriving DecidableEq, Repr, Inhabited

structure Contract where
  id : String
  producer : String
  consumers : List String
  protocol : String
  direction : Direction
  verification : Option Verification
  endpoints : List Endpoint
  deriving Repr, Inhabited

namespace Contract

def serverRole (c : Contract) : Role :=
  match c.direction with
  | .outbound => .producer
  | .inbound => .consumer

def rolesOf (c : Contract) (service : String) : List Role :=
  (if c.producer == service then [.producer] else []) ++
    if c.consumers.contains service then [.consumer] else []

def servicesIn (c : Contract) : Role → List String
  | .producer => [c.producer]
  | .consumer => c.consumers

end Contract

structure Conventions where
  monetaryValues : Option String
  weight : Option String
  dimensions : Option String
  countryCodes : Option String
  timestamps : Option String
  /-- The casing of the enum values of a service, by ascending service, each once. -/
  enumCase : List (String × Casing)
  deriving Repr, Inhabited

namespace Conventions

def forClass? (c : Conventions) : QuantityClass → Option String
  | .money => c.monetaryValues
  | .weight => c.weight
  | .dimension => c.dimensions
  | .countryCode => c.countryCodes
  | .timestamp => c.timestamps

def enumCaseOf? (c : Conventions) (service : String) : Option Casing := c.enumCase.lookup service

end Conventions

structure Manifest where
  services : List Service
  contracts : List Contract
  conventions : Conventions
  /-- The path that findings about the manifest itself are reported at. -/
  path : String
  text : String
  deriving Repr, Inhabited

namespace Manifest

def service? (m : Manifest) (id : String) : Option Service := m.services.find? (·.id == id)

def contract? (m : Manifest) (id : String) : Option Contract := m.contracts.find? (·.id == id)

/-- The line and the column, from zero, of the first line from `line` on that holds a text, and the
lines after it. -/
def findLine? (anchor : List Char) : (line : Nat) → List (List Char) →
    Option (Nat × Nat × List (List Char))
  | _, [] => none
  | line, t :: rest =>
    match find? anchor t with
    | some column => some (line, column, rest)
    | none => findLine? anchor (line + 1) rest

/-- Walks through the lines: each anchor is searched for after the line of the one before it. The
place of the last anchor found, from one; `found` if there is none. -/
def locateFrom (found : Nat × Nat) (line : Nat) (lines : List (List Char)) :
    List (List Char) → Nat × Nat
  | [] => found
  | anchor :: more =>
    if anchor.isEmpty then locateFrom found line lines more
    else
      match findLine? anchor line lines with
      | some (i, column, rest) => locateFrom (i + 1, column + 1) (i + 1) rest more
      | none => found

def locate (m : Manifest) (anchors : List String) : Location :=
  let (line, column) := locateFrom (1, 1) 0 (lines m.text.toList) (anchors.map String.toList)
  ⟨m.path, line, column⟩

end Manifest

end Concord
