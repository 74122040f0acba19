import Concord.Comparison.Kind

/-! # Formats of values -/
namespace Concord.Comparison

/-- The format of a participant, unless it only says that a number is written as text. -/
def properFormat? (p : Participant) : Option String := p.shape.format.filter (!isDecimalText ·)

def sameFormat (a b : String) : Bool :=
  (Quantity.canonicalFormat a).1 == (Quantity.canonicalFormat b).1

/-- A format that is not the one of the manifest; without one in the manifest, a reader whose format
is not that of a supplier. -/
def formatMismatch? (x : Exchange) (field : FieldSchema) (p : Participant) (ps : List Participant)
    (path : String) : Option Mismatch :=
  (properFormat? p).bind fun mine =>
    match field.format with
    | some declared =>
      if sameFormat declared mine || isDecimalText declared then none
      else some (x.disparity .format path p.location declared s!"{p.describe} {p.verb} {mine}")
    | none =>
      if p.supplier then none
      else
        ((ps.filter (·.supplier)).findSome? fun s =>
          ((properFormat? s).filter (!sameFormat · mine)).map (s, ·)).map fun (s, theirs) =>
            x.disparity .format path p.location "one format on both sides"
              s!"{s.describe} sends {theirs}, {p.describe} reads {mine}"

end Concord.Comparison
