import Concord.Comparison.Basic

/-! # Kinds of values -/
namespace Concord.Comparison

def isDecimalText (format : String) : Bool :=
  let canonical := (Quantity.canonicalFormat format).1
  canonical == "decimal_string" || canonical == "decimal"

/-- Whether values of a shape fit a field. Numbers written as text stand in for numbers, and numbers
for them. -/
def compatible (field : FieldSchema) (shape : Shape) : Bool :=
  let decimal := field.format.any isDecimalText || shape.format.any isDecimalText
  match field.type, shape.kind with
  | _, .unknown => true
  | .string, .string | .string, .enum | .enum, .string | .enum, .enum => true
  | .string, .integer | .string, .number | .string, .numeric => decimal
  | .integer, .integer | .integer, .numeric => true
  | .number, .integer | .number, .number | .number, .numeric => true
  | .integer, .string | .number, .string => decimal
  | .boolean, .boolean => true
  | .object, .object => true
  | .array, .array => true
  | _, _ => false

def kindMismatch? (x : Exchange) (field : FieldSchema) (p : Participant) (path : String) :
    Option Mismatch :=
  if compatible field p.shape then none
  else
    let expected := match field.format with
      | some format => s!"{field.type.display} ({format})"
      | none => field.type.display
    some (x.error .type x.rule path p.location expected
      s!"{p.describe} {p.verb} {p.shape.kind.display}")

end Concord.Comparison
