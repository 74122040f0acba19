import Concord.Number.Decimal
import Concord.Text.Basic
import Concord.Text.Case

/-! Canonical names of units and formats, the quantity class they belong to, and the conversion
between two units of one class. -/
namespace Concord

inductive QuantityClass
  | money
  | weight
  | dimension
  | countryCode
  | timestamp
  deriving DecidableEq, Repr, Inhabited

namespace QuantityClass

def all : List QuantityClass := [.money, .weight, .dimension, .countryCode, .timestamp]

/-- The name of the convention that a manifest declares for the class. -/
def display : QuantityClass → String
  | .money => "monetary_values"
  | .weight => "weight"
  | .dimension => "dimensions"
  | .countryCode => "country_codes"
  | .timestamp => "timestamps"

def key : QuantityClass → String
  | .money => "money"
  | .weight => "weight"
  | .dimension => "dimension"
  | .countryCode => "country_code"
  | .timestamp => "timestamp"

end QuantityClass

inductive ScaleOp
  | mul
  | div
  deriving DecidableEq, Repr, Inhabited

def ScaleOp.display : ScaleOp → String
  | .mul => "*"
  | .div => "/"

structure Conversion where
  op : ScaleOp
  factor : Binary64
  deriving DecidableEq, Repr, Inhabited

/-- A factor as an integer if it is within a billionth of one, and with at most four decimals
otherwise. -/
def formatFactor (factor : Binary64) : String :=
  if (factor - factor.round).abs < Binary64.ofDecimal false 1 (-9) then toString factor.round.toInt64
  else String.ofList (Text.dropEndWhile (· == '0') (factor.toFixed 4))

def Conversion.display (c : Conversion) : String := c.op.display ++ formatFactor c.factor

namespace Quantity

structure Unit where
  canonical : String
  aliases : List String
  cls : QuantityClass
  base : Binary64
  deriving Repr

/-- `digits · 10 ^ (-places)`. -/
def size (digits places : Nat) : Binary64 := Binary64.ofDecimal false digits (-(places : Int))

def units : List Unit := [
  ⟨"cents", ["cent", "minor", "minor_units"], .money, size 1 0⟩,
  ⟨"dollars", ["dollar", "usd", "euros", "euro", "major", "major_units"], .money, size 100 0⟩,
  ⟨"milligrams", ["milligram", "mg"], .weight, size 1 3⟩,
  ⟨"grams", ["gram", "g"], .weight, size 1 0⟩,
  ⟨"kilograms", ["kilogram", "kg", "kgs"], .weight, size 1000 0⟩,
  ⟨"pounds", ["pound", "lb", "lbs"], .weight, size 45359237 5⟩,
  ⟨"ounces", ["ounce", "oz"], .weight, size 28349523125 9⟩,
  ⟨"millimeters", ["millimeter", "millimetres", "mm"], .dimension, size 1 0⟩,
  ⟨"centimeters", ["centimeter", "centimetres", "cm"], .dimension, size 10 0⟩,
  ⟨"meters", ["meter", "metres", "m"], .dimension, size 1000 0⟩,
  ⟨"inches", ["inch", "in"], .dimension, size 254 1⟩,
  ⟨"feet", ["foot", "ft"], .dimension, size 3048 1⟩]

def normal (raw : String) : String := String.ofList (Text.asciiLower (Text.trim raw.toList))

def unit? (raw : String) : Option Unit :=
  units.find? fun u => u.canonical == normal raw || u.aliases.contains (normal raw)

def canonicalUnit (raw : String) : String := ((unit? raw).map (·.canonical)).getD (normal raw)

def unitClass? (raw : String) : Option QuantityClass := (unit? raw).map (·.cls)

def isMinorCurrency (raw : String) : Bool := canonicalUnit raw == "cents"

/-- How a value in `source` becomes one in `target`, for two different units of one class. -/
def conversion? (source target : String) : Option Conversion := do
  let a ← unit? source
  let b ← unit? target
  if a.cls != b.cls || a.canonical == b.canonical then none
  else if a.base < b.base then some ⟨.div, b.base / a.base⟩
  else some ⟨.mul, a.base / b.base⟩

def canonicalFormat (raw : String) : String × Option QuantityClass :=
  let key := String.ofList (Text.replaceChar '-' ['_'] (normal raw).toList)
  match key with
  | "date_time" | "datetime" | "iso8601" | "iso_8601" | "rfc3339" | "timestamp" =>
    ("iso8601", some .timestamp)
  | "unix" | "unix_seconds" | "epoch" | "epoch_seconds" => ("unix_seconds", some .timestamp)
  | "unix_ms" | "unix_millis" | "unix_milliseconds" | "epoch_millis" =>
    ("unix_millis", some .timestamp)
  | "date" | "iso8601_date" => ("date", some .timestamp)
  | "alpha2" | "iso3166_alpha2" | "iso_3166_1_alpha_2" | "alpha_2" => ("alpha2", some .countryCode)
  | "alpha3" | "iso3166_alpha3" | "iso_3166_1_alpha_3" | "alpha_3" => ("alpha3", some .countryCode)
  | other => (other, none)

def fieldClass? (unit format : Option String) : Option QuantityClass :=
  (unit.bind unitClass?).or (format.bind fun f => (canonicalFormat f).2)

end Quantity

end Concord
