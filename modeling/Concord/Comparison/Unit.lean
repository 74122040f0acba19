import Concord.Comparison.Basic

/-! What suppliers send and what a reader takes it for are the same unit, or the code converts. -/
namespace Concord.Comparison

open Quantity

def near (tolerance a b : Binary64) : Bool := (a - b).abs < tolerance

def scalesBy (tolerance : Binary64) (needed : Conversion) (evidence : List Evidence) : Bool :=
  evidence.any fun e =>
    match e.kind with
    | .scale c => c.op = needed.op && near tolerance c.factor needed.factor
    | _ => false

def centsToWhole : Conversion := ⟨.div, .ofNat 100⟩

/-- Cents that are written with decimals and never divided by a hundred. -/
def bareCents? (p : Participant) (names : List String) : Option Evidence :=
  let evidence := p.evidenceOn names
  let rendered := evidence.find? fun e =>
    match e.kind with
    | .render decimals => 0 < decimals
    | _ => false
  if scalesBy (.ofDecimal false 1 (-9)) centsToWhole evidence then none else rendered

/-- A unit that reaches a reader, with the supplier that sends it; without one it is the unit the
manifest promises. -/
structure Arrival where
  unit : String
  supplier : Option Participant

def arrivals (x : Exchange) (field : FieldSchema) (readerUnit : String) (ps : List Participant) :
    List Arrival :=
  let cls := (fieldClass? field.unit field.format).or (unitClass? readerUnit)
  let promised := (cls.bind x.conventions.forClass?).or field.unit
  match ps.filter (·.supplier) with
  | [] => promised.toList.map (⟨·, none⟩)
  | suppliers => suppliers.filterMap fun s => (s.shape.unit.or promised).map (⟨·, some s⟩)

/-- Whether a unit is what a reader takes it for: it is the same one, or the reader or the supplier
converts it. -/
def arrivesAs (p : Participant) (names : List String) (readerUnit : String) (a : Arrival) : Bool :=
  canonicalUnit a.unit == canonicalUnit readerUnit ||
    (conversion? a.unit readerUnit).any fun needed =>
      scalesBy (.ofDecimal false 1 (-6)) needed
        (p.evidenceOn names ++ (a.supplier.map (·.evidenceOn names)).getD [])

def unitMismatch? (x : Exchange) (field : FieldSchema) (p : Participant) (ps : List Participant)
    (path : String) : Option Mismatch :=
  (p.shape.unit.or field.unit).bind fun readerUnit =>
    let names := p.names field
    match if isMinorCurrency readerUnit then bareCents? p names else none with
    | some render =>
      some (x.disparity .unit path render.location (canonicalUnit readerUnit)
        "cents rendered without /100 conversion")
    | none =>
      ((arrivals x field readerUnit ps).find? (!arrivesAs p names readerUnit ·)).map fun a =>
        let source := (a.supplier.map (·.describe)).getD "the manifest"
        let how := ((conversion? a.unit readerUnit).map fun c =>
          s!" without {c.display} conversion").getD ""
        x.disparity .unit path p.location ((field.unit.map canonicalUnit).getD "")
          (s!"{source} sends {canonicalUnit a.unit}, {p.describe} reads " ++
            canonicalUnit readerUnit ++ how)

end Concord.Comparison
