import Concord.Comparison.Drift
import Concord.Comparison.Enum
import Concord.Comparison.Format
import Concord.Comparison.Strictness
import Concord.Comparison.Unit
import Concord.FieldPath

/-! The schema of a payload is walked depth first, in the order of declaration, together with the
shapes of all participants. For each field the checks of a participant end with the first finding.
-/
namespace Concord.Comparison

/-- Whether a member carries a field under another name: it is no declared field itself, and its name
on the wire or in the source is the one of the field but for case and separators. -/
def isRenamed (declared : List String) (field : FieldSchema) (c : Shape) : Bool :=
  let want := Identifier.fold field.name
  !declared.contains c.name &&
    (Identifier.fold c.name == want || c.declaredName.any fun d => Identifier.fold d == want)

/-- The member of a shape that carries a field: the one of its name, or else a renamed one. -/
def carrier? (declared : List String) (field : FieldSchema) (s : Shape) : Option Shape :=
  (s.child? field.name).or (s.children.find? (isRenamed declared field))

/-- What a participant's own members say about a field: it has another name, or it is missing. -/
def presence (x : Exchange) (declared : List String) (field : FieldSchema) (path : String)
    (p : Participant) : List Finding :=
  match p.shape.child? field.name with
  | some _ => []
  | none =>
    match p.shape.children.find? (isRenamed declared field) with
    | some c =>
      [.plain (x.error .tag .jsonTagMatch path c.origin.location s!"'{field.name}'"
        s!"{p.describe} {p.verb} '{c.name}'")]
    | none =>
      if p.supplier && field.required && p.shape.confidence = .declared then
        [.plain (x.error .missing x.rule path p.location "required"
          s!"{p.describe} omits it from the {x.payload.display}")]
      else []

def extra (x : Exchange) (path : String) (p : Participant) (c : Shape) : Finding :=
  let action :=
    if p.supplier then "sends" else if c.validated then "requires" else "reads"
  .plain {
    x.error .extra x.rule (FieldPath.join path c.name) c.origin.location "not declared"
      s!"{p.describe} {action} it" with
    severity := if !p.supplier && c.validated then .error else .warning }

/-- The members of a participant that carry no field, by ascending name. -/
def extras (x : Exchange) (fields : List FieldSchema) (path : String) (p : Participant) :
    List Finding :=
  let declared := fields.map (·.name)
  let carriers := fields.filterMap fun f => (carrier? declared f p.shape).map (·.name)
  let rest := p.shape.children.filter (!carriers.contains ·.name)
  (rest.mergeSort fun a b => compare a.name b.name != .gt).map (extra x path p)

/-- The first check: the kind of value, then the values of an enum. -/
def valueMismatch? (x : Exchange) (field : FieldSchema) (path : String) (p : Participant) :
    Option Mismatch :=
  (kindMismatch? x field p path).or (enumMismatch? x field p path)

/-- The second check: for readers the unit, then for all the format. -/
def quantityMismatch? (x : Exchange) (field : FieldSchema) (path : String) (ps : List Participant)
    (p : Participant) : Option Mismatch :=
  if p.supplier then formatMismatch? x field p ps path
  else (unitMismatch? x field p ps path).or (formatMismatch? x field p ps path)

/-- The findings on a field itself: one check after the other over all participants, of which those
with a finding take no further part. -/
def fieldMismatches (x : Exchange) (field : FieldSchema) (path : String) (ps : List Participant) :
    List Mismatch :=
  let value := valueMismatch? x field path
  let quantity := quantityMismatch? x field path ps
  let passed := ps.filter fun p => (value p).isNone
  let clean := passed.filter fun p => (quantity p).isNone
  ps.filterMap value ++ passed.filterMap quantity ++
    clean.filterMap fun p => strictnessMismatch? x field p path

/-- The findings on an object, given those on its fields. An object without declared fields is free
in its members. -/
def objectFindings (x : Exchange) (fields : List FieldSchema) (path : String) (ps : List Participant)
    (onFields : List Finding) : List Finding :=
  drifts x path ps ++ if fields.isEmpty then [] else onFields ++ ps.flatMap (extras x fields path)

mutual

def fieldFindings (x : Exchange) (path : String) (ps : List Participant) :
    FieldSchema → List Finding
  | field@⟨_, type, _, _, _, _, _, children, items, _, truncated⟩ =>
    (fieldMismatches x field path ps).map .plain ++
      if truncated then []
      else
        match type with
        | .object =>
          match ps.filter (·.shape.kind = .object) with
          | [] => []
          | members =>
            objectFindings x children path members
              (memberFindings x (children.map (·.name)) path members children)
        | .array =>
          itemFindings x (FieldPath.join path "[]")
            (ps.filterMap fun p => p.shape.items.map p.inside) items
        | _ => []

def memberFindings (x : Exchange) (declared : List String) (path : String) (ps : List Participant) :
    List FieldSchema → List Finding
  | [] => []
  | field :: rest =>
    let inner := FieldPath.join path field.name
    ps.flatMap (presence x declared field inner) ++
      fieldFindings x inner (ps.filterMap fun p => (carrier? declared field p.shape).map p.inside)
        field ++
      memberFindings x declared path ps rest

def itemFindings (x : Exchange) (path : String) (ps : List Participant) :
    Option FieldSchema → List Finding
  | none => []
  | some item => fieldFindings x path ps item

end

def payloadFindings (x : Exchange) (fields : Payload) (ps : List Participant) : List Finding :=
  if ps.isEmpty then []
  else objectFindings x fields "" ps (memberFindings x (fields.map (·.name)) "" ps fields)

def participants (payload : PayloadKind) (bindings : List Binding) : List Participant :=
  bindings.filterMap fun b => (b.shape? payload).map fun shape => ⟨b, b.supplies payload, shape⟩

/-- The findings of both payloads of an endpoint: its request and its successful response. -/
def endpointFindings (conventions : Conventions) (contract : Contract) (endpoint : Endpoint)
    (bindings : List Binding) : List Finding :=
  let on := fun (payload : PayloadKind) (fields : Option Payload) =>
    match fields with
    | some fields =>
      payloadFindings ⟨conventions, contract.id, endpoint.id, payload⟩ fields
        (participants payload bindings)
    | none => []
  on .request endpoint.request ++ on .response endpoint.success?

def compareEndpoint (conventions : Conventions) (contract : Contract) (endpoint : Endpoint)
    (bindings : List Binding) : List Mismatch :=
  Finding.reported (endpointFindings conventions contract endpoint bindings)

end Concord.Comparison
