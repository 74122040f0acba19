import Concord.Comparison.Basic

/-! Suppliers stay inside the values of the manifest, and readers compare with values that someone
sends. Where a service has a casing, its values follow it. -/
namespace Concord.Comparison

def comparedValues (p : Participant) (names : List String) : List String :=
  if p.supplier then []
  else Text.sortedUnique (p.binding.evidence.filterMap fun e =>
    match e.kind with
    | .enumLiteral value => if Identifier.mentions e.field names then some value else none
    | _ => none)

def caseTransforms (p : Participant) (names : List String) : List CaseTransform :=
  (p.evidenceOn names).filterMap fun e =>
    match e.kind with
    | .case t => some t
    | _ => none

def forms (transforms : List CaseTransform) (value : String) : List String :=
  value :: transforms.map (·.apply value)

/-- The finding on a value that the manifest does not list: a value that differs by case only is a
matter of case. -/
def unlisted (x : Exchange) (field : FieldSchema) (p : Participant) (path value : String) : Mismatch :=
  let observed := s!"{p.describe} {p.verb} '{value}'"
  match field.enumValues.find? fun d => Text.asciiSame d.toList value.toList with
  | some expected => x.disparity .case path p.location s!"'{expected}'" observed
  | none => x.disparity .enum path p.location (", ".intercalate field.enumValues) observed

def enumMismatch? (x : Exchange) (field : FieldSchema) (p : Participant) (path : String) :
    Option Mismatch :=
  let names := p.names field
  let declared := Text.sortedUnique p.shape.enumValues
  let compared := comparedValues p names
  let forms := forms (caseTransforms p names)
  let checked := if field.enumValues.isEmpty then [] else if p.supplier then declared else compared
  match checked.find? fun v => !(forms v).any field.enumValues.contains with
  | some value => some (unlisted x field p path value)
  | none =>
    (x.conventions.enumCaseOf? p.service).bind fun casing =>
      ((Text.sortedUnique (declared ++ compared)).find? fun v => !(forms v).any casing.holds).map
        fun value =>
          x.disparity .case path p.location s!"{casing.display} for {p.service}"
            s!"{p.describe} {p.verb} '{value}'"

end Concord.Comparison
