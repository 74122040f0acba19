import Concord.Yaml.Printer

/-! A manifest as it is written, before it is checked: names of types and languages are texts,
references are not resolved, and members may be repeated. -/
namespace Concord

open Yaml

/-- The range of a field: two named ends, or a list of them. -/
inductive RangeDoc
  | bounds (min max : Option Binary64)
  | list (ends : List (Option Binary64))
  deriving Repr, Inhabited

structure FieldDoc where
  type : String
  format : Option String
  unit : Option String
  range : Option RangeDoc
  values : Option (List String)
  required : Bool
  optional : Bool
  hasDefault : Bool
  fields : Option (List (String × FieldDoc))
  items : Option FieldDoc
  ref : Option String
  deriving Repr, Inhabited

/-- The fields of a request or a response in order, repeated names included. -/
abbrev PayloadDoc := List (String × FieldDoc)

structure ServiceDoc where
  id : String
  language : String
  baseUrl : Option String
  root : Option String
  deriving Repr, Inhabited

inductive ToleranceDoc
  | seconds (n : Nat)
  | other (text : String)
  deriving Repr, Inhabited

structure VerificationDoc where
  method : String
  header : String
  timestampHeader : Option String
  tolerance : Option ToleranceDoc
  deriving Repr, Inhabited

structure EndpointDoc where
  path : String
  method : String
  request : Option PayloadDoc
  response : Option PayloadDoc
  responses : List (String × PayloadDoc)
  statusCodes : List Int
  deriving Repr, Inhabited

structure ContractDoc where
  id : String
  producer : String
  consumers : List String
  protocol : Option String
  direction : Option String
  verification : Option VerificationDoc
  endpoints : List EndpointDoc
  deriving Repr, Inhabited

structure ConventionsDoc where
  monetaryValues : Option String
  weight : Option String
  dimensions : Option String
  countryCodes : Option String
  timestamps : Option String
  enumCase : List (String × String)
  deriving Repr, Inhabited

structure ManifestDoc where
  services : List ServiceDoc
  contracts : List ContractDoc
  conventions : ConventionsDoc
  types : List (String × FieldDoc)
  deriving Repr, Inhabited

def endOf? : Value → Option (Option Binary64)
  | .null => some none
  | .int n => some (some (.ofInt n))
  | .float x => some (some x)
  | _ => none

/-- The end that a key of a range names: by its name or by its place. -/
def endName? : Value → Option String
  | .str s => some s
  | .int 0 => some "min"
  | .int 1 => some "max"
  | .int n => if 0 ≤ n then some "" else none
  | _ => none

def RangeDoc.ofEntries? (entries : List (Value × Value)) : Option RangeDoc := do
  let named ← entries.mapM fun e => (endName? e.1).map (·, e.2)
  let bound := fun (name : String) =>
    match named.filter (·.1 == name) with
    | [] => some none
    | [e] => endOf? e.2
    | _ => none
  let min ← bound "min"
  let max ← bound "max"
  some (.bounds min max)

def RangeDoc.ofValue? : Value → Option RangeDoc
  | .map entries => RangeDoc.ofEntries? entries
  | .seq items => (items.mapM endOf?).map .list
  | _ => none

def RangeDoc.read (v : View) : Decoder RangeDoc := do
  let x ← v.content
  if x.isUntagged then Decoder.lift (RangeDoc.ofValue? x) else Decoder.fail

def valueText : Value → String
  | .str s => s
  | v => v.print

/-- Reads a field; each field inside another one is at least one collection deeper, so the depth of
the document bounds `fuel`. -/
def fieldWithin : (fuel : Nat) → View → Decoder FieldDoc
  | 0, _ => Decoder.fail
  | fuel + 1, v => do
    let fs ← v.fields [
      "type", "format", "unit", "range", "values", "required", "optional", "default", "fields", "items",
      "ref"]
    return {
      type := ← fs.required "type" View.text
      format := ← fs.optional "format" View.text
      unit := ← fs.optional "unit" View.text
      range := ← fs.optional "range" RangeDoc.read
      values := ← fs.optional "values" (View.list fun v => return valueText (← v.value))
      required := ← fs.defaulted "required" false View.flag
      optional := ← fs.defaulted "optional" false View.flag
      hasDefault := (← fs.optional "default" View.value).isSome
      fields := ← fs.optional "fields" (View.members (fieldWithin fuel))
      items := ← fs.optional "items" (fieldWithin fuel)
      ref := ← fs.optional "ref" View.text }

def FieldDoc.read (v : View) : Decoder FieldDoc := fieldWithin (v.depth + 1) v

def payload (v : View) : Decoder PayloadDoc := do
  let fs ← v.fields ["fields"]
  fs.defaulted "fields" [] (View.members FieldDoc.read)

def ServiceDoc.read (v : View) : Decoder ServiceDoc := do
  let fs ← v.fields ["id", "language", "base_url", "root"]
  return {
    id := ← fs.required "id" View.text
    language := ← fs.required "language" View.text
    baseUrl := ← fs.optional "base_url" View.text
    root := ← fs.optional "root" View.text }

/-- A tolerance, if one is given; a tag before a number does not count. -/
def ToleranceDoc.ofValue? (v : Value) : Option ToleranceDoc :=
  match v, v.untagged with
  | .null, _ => none
  | _, .int n => some (if 0 ≤ n then .seconds n.toNat else .other v.print)
  | _, _ => some (.other v.print)

def VerificationDoc.read (v : View) : Decoder VerificationDoc := do
  let fs ← v.fields ["method", "header", "timestamp_header", "tolerance_seconds"]
  return {
    method := ← fs.required "method" View.text
    header := ← fs.required "header" View.text
    timestampHeader := ← fs.optional "timestamp_header" View.text
    tolerance := (← fs.optional "tolerance_seconds" View.value).bind ToleranceDoc.ofValue? }

def EndpointDoc.read (v : View) : Decoder EndpointDoc := do
  let fs ← v.fields ["path", "method", "request", "response", "responses", "status_codes"]
  return {
    path := ← fs.required "path" View.text
    method := ← fs.required "method" View.text
    request := ← fs.optional "request" payload
    response := ← fs.optional "response" payload
    responses := ← fs.defaulted "responses" [] (View.members payload)
    statusCodes := ← fs.defaulted "status_codes" [] (View.list View.integer) }

def ContractDoc.read (v : View) : Decoder ContractDoc := do
  let fs ← v.fields [
    "id", "producer", "consumers", "protocol", "direction", "verification", "endpoints"]
  return {
    id := ← fs.required "id" View.text
    producer := ← fs.required "producer" View.text
    consumers := ← fs.defaulted "consumers" [] (View.list View.text)
    protocol := ← fs.optional "protocol" View.text
    direction := ← fs.optional "direction" View.text
    verification := ← fs.optional "verification" VerificationDoc.read
    endpoints := ← fs.defaulted "endpoints" [] (View.list EndpointDoc.read) }

def ConventionsDoc.read (v : View) : Decoder ConventionsDoc := do
  let fs ← v.fields [
    "monetary_values", "weight", "dimensions", "country_codes", "timestamps", "enum_case"]
  return {
    monetaryValues := ← fs.optional "monetary_values" View.text
    weight := ← fs.optional "weight" View.text
    dimensions := ← fs.optional "dimensions" View.text
    countryCodes := ← fs.optional "country_codes" View.text
    timestamps := ← fs.optional "timestamps" View.text
    enumCase := ← fs.defaulted "enum_case" [] (View.members View.text) }

def ManifestDoc.read (v : View) : Decoder ManifestDoc := do
  let fs ← v.fields ["services", "contracts", "conventions", "types"]
  return {
    services := ← fs.defaulted "services" [] (View.list ServiceDoc.read)
    contracts := ← fs.defaulted "contracts" [] (View.list ContractDoc.read)
    conventions := ← fs.defaulted "conventions" ⟨none, none, none, none, none, []⟩ ConventionsDoc.read
    types := ← fs.defaulted "types" [] (View.members FieldDoc.read) }

def ManifestDoc.read? (text : String) : Option ManifestDoc := do
  (← Document.read? text.toList).decode? ManifestDoc.read

end Concord
