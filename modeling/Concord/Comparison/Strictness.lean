import Concord.Comparison.Basic

/-! Only the direction in which data is lost counts: readers that accept less than the manifest
allows, and suppliers that send more. -/
namespace Concord.Comparison

/-- What a supplier may send beyond the manifest: the expectation and what is observed. -/
def looser? (field : FieldSchema) (p : Participant) : Option (String × String) :=
  let broader := p.shape.range.bind fun r =>
    (field.range.filter r.broaderThan).map fun (declared : Range) =>
      (Range.display declared, s!"{p.describe} may send values in {Range.display r}")
  broader.or
    (if field.required && !p.shape.required then
      some ("required", s!"optional on {p.binding.key.side.display}")
    else none)

/-- What a reader refuses although the manifest allows it: the expectation and what is observed. -/
def stricter? (field : FieldSchema) (p : Participant) : Option (String × String) :=
  let shape := p.shape
  let side := p.binding.key.side
  let declared : Range := field.range.getD .unbounded
  match shape.range.filter (·.narrowerThan declared) with
  | some r => some (declared.display, s!"{p.describe} accepts only {Range.display r}")
  | none =>
    if shape.validated && !field.required then
      some ("optional",
        s!"required on {side.display} but optional on {side.opposite.display}")
    else
      let refused := if shape.enumValues.isEmpty then none else
        field.enumValues.find? fun v =>
          !shape.enumValues.any fun s => Text.asciiSame s.toList v.toList
      match refused with
      | some value =>
        some (", ".intercalate field.enumValues, s!"{p.describe} does not accept '{value}'")
      | none =>
        if field.type = .number && shape.kind = .integer then
          some ("number", s!"{p.describe} reads it as an integer")
        else none

def strictnessMismatch? (x : Exchange) (field : FieldSchema) (p : Participant) (path : String) :
    Option Mismatch :=
  (if p.supplier then looser? field p else stricter? field p).map fun (expected, observed) =>
    x.disparity .strictness path p.location expected observed

end Concord.Comparison
