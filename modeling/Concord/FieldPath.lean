/-! # Paths of fields in payloads -/
namespace Concord.FieldPath

/-- The path of a member: `order.id` for a field, `items[]` for the items of an array. -/
def join (parent name : String) : String :=
  if parent.isEmpty then name
  else if name == "[]" then parent ++ "[]"
  else parent ++ "." ++ name

end Concord.FieldPath
