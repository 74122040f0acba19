import Concord.Manifest.Document
import Concord.Manifest.Schema
import Concord.Number.Natural

/-! A document becomes a manifest when its names are known, its references resolve and its ranges
are proper. References are expanded up to a depth; a type is not expanded inside itself. -/
namespace Concord

open Text

inductive ManifestError
  | read (path reason : String)
  | malformed
  | duplicateService (id : String)
  | unknownLanguage (service language : String)
  | duplicateContract (id : String)
  | unknownService (contract service : String)
  | invalidDirection (contract direction : String)
  | duplicateEndpoint (contract endpoint : String)
  | invalidMethod (contract method : String)
  | invalidStatusCode (contract endpoint : String) (code : Int)
  | duplicateField (scope field : String)
  | unknownFieldType (path type : String)
  | scalarOnly (path property : String)
  | requiredWithDefault (path : String)
  | invalidRange (path : String)
  | unknownRef (path name : String)
  | invalidTolerance (contract value : String)
  | unknownCasing (service casing : String)
  | unknownCasingService (service : String)
  deriving DecidableEq, Repr, Inhabited

def ManifestError.message : ManifestError → String
  | .read path reason => s!"cannot read manifest {path}: {reason}"
  | .malformed => "malformed manifest: "
  | .duplicateService id => s!"duplicate service id '{id}'"
  | .unknownLanguage service language =>
    s!"service '{service}' declares unsupported language '{language}'"
  | .duplicateContract id => s!"duplicate contract id '{id}'"
  | .unknownService contract service =>
    s!"contract '{contract}' references undeclared service '{service}'"
  | .invalidDirection contract direction =>
    s!"contract '{contract}' has an invalid direction '{direction}'"
  | .duplicateEndpoint contract endpoint =>
    s!"contract '{contract}' declares endpoint '{endpoint}' more than once"
  | .invalidMethod contract method => s!"contract '{contract}' has an invalid HTTP method '{method}'"
  | .invalidStatusCode contract endpoint code =>
    s!"{endpoint} in contract '{contract}' declares invalid status code {code}"
  | .duplicateField scope field => s!"duplicate field '{field}' in {scope}"
  | .unknownFieldType path type => s!"field '{path}' has unknown type '{type}'"
  | .scalarOnly path property =>
    s!"field '{path}' declares '{property}', which is only allowed on scalar fields"
  | .requiredWithDefault path => s!"field '{path}' is required but declares a default"
  | .invalidRange path => s!"field '{path}' has an empty or inverted range"
  | .unknownRef path name => s!"field '{path}' references undeclared type '{name}'"
  | .invalidTolerance contract value =>
    s!"verification.tolerance_seconds of contract '{contract}' must be a non-negative integer, got {value}"
  | .unknownCasing service casing => s!"enum_case for '{service}' names unknown casing '{casing}'"
  | .unknownCasingService service => s!"enum_case names undeclared service '{service}'"

abbrev Checked (α : Type) := Except ManifestError α

def firstRepeat? (seen : List String) : List String → Option String
  | [] => none
  | a :: rest => if seen.contains a then some a else firstRepeat? (a :: seen) rest

def checkNames (scope : String) (names : List String) : Checked Unit :=
  match firstRepeat? [] names with
  | some name => .error (.duplicateField scope name)
  | none => .ok ()

/-- A range with at least one end and not inverted. -/
def buildRange (path : String) (r : RangeDoc) : Checked Range :=
  let range? : Option Range := match r with
    | .bounds min max => some ⟨min, max⟩
    | .list [min, max] => some ⟨min, max⟩
    | .list _ => none
  match range? with
  | none => .error (.invalidRange path)
  | some range =>
    match range.min, range.max with
    | none, none => .error (.invalidRange path)
    | some low, some high => if high < low then .error (.invalidRange path) else .ok range
    | _, _ => .ok range

def buildScalar (path name : String) (d : FieldDoc) : Checked FieldSchema := do
  match FieldType.ofName? d.type with
  | none => throw (.unknownFieldType path d.type)
  | some type =>
    if !type.isScalar && d.range.isSome then throw (.scalarOnly path "range")
    else if !type.isScalar && d.values.isSome then throw (.scalarOnly path "values")
    else if d.required && d.hasDefault && !d.optional then throw (.requiredWithDefault path)
    else
      let range ← d.range.mapM (buildRange path)
      return {
        name
        type
        format := d.format
        unit := d.unit
        range
        enumValues := d.values.getD []
        required := d.required && !d.optional
        children := []
        items := none
        ref := none
        truncated := false }

/-- How a field is built at some depth: the types in `visiting` are being expanded around it. -/
abbrev FieldBuilder := (visiting : List String) → (path name : String) → FieldDoc → Checked FieldSchema

def buildMembers (inner : FieldBuilder) (visiting : List String) (path : String)
    (fields : List (String × FieldDoc)) : Checked (List FieldSchema) := do
  checkNames path (fields.map (·.1))
  fields.mapM fun f => inner visiting (path ++ "." ++ f.1) f.1 f.2

/-- The fields inside another, if it has any; none at the depth where fields are cut off. -/
def buildChildren (inner? : Option FieldBuilder) (visiting : List String) (path : String)
    (fields : Option (List (String × FieldDoc))) : Checked (List FieldSchema) :=
  match fields, inner? with
  | some fields, some inner => buildMembers inner visiting path fields
  | _, _ => .ok []

/-- A field around what `inner?` builds inside it; without it, the field is cut off there. -/
def buildAround (types : List (String × FieldDoc)) (inner? : Option FieldBuilder) : FieldBuilder :=
  fun visiting path name d => do
    let s ← buildScalar path name d
    match s.type with
    | .object =>
      match d.ref with
      | some ref =>
        let s : FieldSchema := { s with ref := some ref }
        match types.lookup ref with
        | none => throw (.unknownRef path ref)
        | some target =>
          if visiting.contains ref || inner?.isNone then return { s with truncated := true }
          else
            let children ← buildChildren inner? (ref :: visiting) path target.fields
            return { s with children }
      | none =>
        if d.fields.isSome && inner?.isNone then return { s with truncated := true }
        else
          let children ← buildChildren inner? visiting path d.fields
          return { s with children }
    | .array =>
      match d.items, inner? with
      | none, _ => return s
      | some _, none => return { s with truncated := true }
      | some item, some inner =>
        let item ← inner visiting (path ++ "[]") "[]" item
        return { s with items := some item }
    | _ => return s

def buildField (types : List (String × FieldDoc)) : (left : Nat) → FieldBuilder
  | 0 => buildAround types none
  | left + 1 => buildAround types (some (buildField types left))

/-- What fields are built with: the named types and the depth of expansion. -/
structure Expansion where
  types : List (String × FieldDoc)
  maxDepth : Nat

def Expansion.field (x : Expansion) (path name : String) (d : FieldDoc) : Checked FieldSchema :=
  buildField x.types x.maxDepth [] path name d

def Expansion.payload (x : Expansion) (scope : String) (p : PayloadDoc) : Checked Payload := do
  checkNames scope (p.map (·.1))
  p.mapM fun f => x.field f.1 f.1 f.2

def buildService (seen : List String) (d : ServiceDoc) : Checked Service :=
  if seen.contains d.id then .error (.duplicateService d.id)
  else
    match Language.ofManifest? d.language with
    | none => .error (.unknownLanguage d.id d.language)
    | some language => .ok {
        id := d.id
        language
        baseUrl := d.baseUrl
        root := d.root.map fun r => String.ofList (dropEndWhile (· == '/') r.toList) }

def buildServices (seen : List String) : List ServiceDoc → Checked (List Service)
  | [] => .ok []
  | d :: rest => do
    let s ← buildService seen d
    return s :: (← buildServices (d.id :: seen) rest)

def buildVerification (contract : String) (d : VerificationDoc) : Checked Verification := do
  let toleranceSeconds ← match d.tolerance with
    | none => pure none
    | some (.seconds n) => pure (some n)
    | some (.other text) => throw (.invalidTolerance contract text)
  return { method := d.method, header := d.header, timestampHeader := d.timestampHeader,
           toleranceSeconds }

def methods : List String := ["GET", "POST", "PUT", "PATCH", "DELETE", "HEAD", "OPTIONS"]

def statusCode (contract endpoint : String) (code : Int) : Checked Nat :=
  if 100 ≤ code && code ≤ 599 then .ok code.toNat
  else .error (.invalidStatusCode contract endpoint code)

def insertResponse (code : Nat) (p : Payload) : List (Nat × Payload) → List (Nat × Payload)
  | [] => [(code, p)]
  | r :: rest =>
    if code < r.1 then (code, p) :: r :: rest
    else if code == r.1 then (code, p) :: rest
    else r :: insertResponse code p rest

/-- The number that the key of a response gives, -1 if it gives none. -/
def responseCode (key : String) : Int :=
  let t := trim key.toList
  if isInteger64 t then
    match t with
    | '-' :: ds => -(Binary64.digitsValue ds : Int)
    | '+' :: ds => Binary64.digitsValue ds
    | ds => Binary64.digitsValue ds
  else -1

def buildEndpoint (x : Expansion) (contract : String) (d : EndpointDoc) : Checked Endpoint := do
  let method := String.ofList (asciiUpper (trim d.method.toList))
  if !methods.contains method then throw (.invalidMethod contract d.method)
  else
    let id := method ++ " " ++ d.path
    let statusCodes ← d.statusCodes.mapM (statusCode contract id)
    let request ← d.request.mapM (x.payload s!"{contract} {id} request")
    let response ← d.response.mapM (x.payload s!"{contract} {id} response")
    let success := statusCodes.filter fun c => 200 ≤ c && c < 300
    let plain := match response with
      | none => []
      | some p => (if success.isEmpty then [200] else success).foldl (fun rs c => insertResponse c p rs) []
    let responses ← d.responses.foldlM (fun rs (key, body) => do
      let code ← statusCode contract id (responseCode key)
      let p ← x.payload s!"{contract} {id} response {key}" body
      return insertResponse code p rs) plain
    return { method, path := d.path, request, responses, statusCodes }

def buildEndpoints (x : Expansion) (contract : String) (seen : List String) :
    List EndpointDoc → Checked (List Endpoint)
  | [] => .ok []
  | d :: rest => do
    let e ← buildEndpoint x contract d
    if seen.contains e.id then throw (.duplicateEndpoint contract e.id)
    else return e :: (← buildEndpoints x contract (e.id :: seen) rest)

def buildDirection (contract : String) (direction : Option String) : Checked Direction :=
  match direction.map fun t => String.ofList (asciiLower t.toList) with
  | none | some "outbound" => .ok .outbound
  | some "inbound" => .ok .inbound
  | some other => .error (.invalidDirection contract other)

def buildContract (x : Expansion) (known : List String) (d : ContractDoc) : Checked Contract := do
  match (d.producer :: d.consumers).find? (!known.contains ·) with
  | some service => throw (.unknownService d.id service)
  | none =>
    let direction ← buildDirection d.id d.direction
    let verification ← d.verification.mapM (buildVerification d.id)
    let endpoints ← buildEndpoints x d.id [] d.endpoints
    return {
      id := d.id
      producer := d.producer
      consumers := d.consumers
      protocol := d.protocol.getD "http"
      direction
      verification
      endpoints }

def buildContracts (x : Expansion) (known seen : List String) :
    List ContractDoc → Checked (List Contract)
  | [] => .ok []
  | d :: rest => do
    if seen.contains d.id then throw (.duplicateContract d.id)
    else
      let c ← buildContract x known d
      return c :: (← buildContracts x known (d.id :: seen) rest)

def insertCasing (service : String) (c : Casing) : List (String × Casing) → List (String × Casing)
  | [] => [(service, c)]
  | e :: rest =>
    if service < e.1 then (service, c) :: e :: rest
    else if service == e.1 then (service, c) :: rest
    else e :: insertCasing service c rest

def buildConventions (known : List String) (d : ConventionsDoc) : Checked Conventions := do
  let enumCase ← d.enumCase.foldlM (fun es (service, name) => do
    if !known.contains service then throw (.unknownCasingService service)
    else
      match Casing.ofName? name with
      | none => throw (.unknownCasing service name)
      | some c => return insertCasing service c es) []
  return {
    monetaryValues := d.monetaryValues
    weight := d.weight
    dimensions := d.dimensions
    countryCodes := d.countryCodes
    timestamps := d.timestamps
    enumCase }

/-- Checks a document. Named types are checked even if nothing refers to them. -/
def ManifestDoc.build (d : ManifestDoc) (maxDepth : Nat) (path text : String) : Checked Manifest := do
  let services ← buildServices [] d.services
  let known := services.map (·.id)
  let x : Expansion := ⟨d.types, max maxDepth 1⟩
  checkNames "types" (d.types.map (·.1))
  let _ ← d.types.mapM fun t => x.field ("types." ++ t.1) t.1 t.2
  let contracts ← buildContracts x known [] d.contracts
  let conventions ← buildConventions known d.conventions
  return { services, contracts, conventions, path, text }

def Manifest.parse (text path : String) (maxDepth : Nat) : Checked Manifest :=
  match ManifestDoc.read? text with
  | none => .error .malformed
  | some d => d.build maxDepth path text

end Concord
