/-! The numbers of the binary64 format as exact mantissas and exponents. Every operation computes
its exact result first and rounds once, to the nearest number and on a tie to the even mantissa. -/
namespace Concord

/-- The mantissas of 53 bits, with the first bit set unless the exponent is least, and the exponents
of the format. -/
def FitsBinary64 (m : Nat) (e : Int) : Prop :=
  m < Nat.pow 2 53 ∧ -1074 ≤ e ∧ e ≤ 971 ∧ (Nat.pow 2 52 ≤ m ∨ e = -1074)

instance (m : Nat) (e : Int) : Decidable (FitsBinary64 m e) :=
  inferInstanceAs (Decidable (_ ∧ _ ∧ _ ∧ _))

/-- A number of the binary64 format. A finite one is `± m · 2 ^ e`. -/
inductive Binary64
  | nan
  | inf (neg : Bool)
  | finite (neg : Bool) (m : Nat) (e : Int) (h : FitsBinary64 m e)
  deriving DecidableEq, Repr, Inhabited

namespace Binary64

/-- The quotient rounded to the nearest integer, a half to the even one. -/
def roundQuotient (n d : Nat) : Nat :=
  let f := n / d
  let r := 2 * (n % d)
  if r < d then f else if d < r then f + 1 else if f % 2 = 0 then f else f + 1

def scaled (p q : Nat) (e : Int) : Nat × Nat :=
  if 0 ≤ e then (p, q * Nat.pow 2 e.toNat) else (p * Nat.pow 2 (-e).toNat, q)

def zero (neg : Bool) : Binary64 := .finite neg 0 (-1074) (by decide)

def ofQuotient (neg : Bool) (p q : Nat) : Binary64 :=
  if p = 0 then zero neg
  else
    let e := (p.log2 : Int) - q.log2 - 52
    let (n, d) := scaled p q e
    let e := max (-1074) (if n / d < Nat.pow 2 52 then e - 1 else e)
    let (n, d) := scaled p q e
    let m := roundQuotient n d
    let (m, e) := if m = Nat.pow 2 53 then (Nat.pow 2 52, e + 1) else (m, e)
    if h : FitsBinary64 m e then .finite neg m e h else .inf neg

def ofNat (n : Nat) : Binary64 := ofQuotient false n 1

def ofInt (n : Int) : Binary64 := ofQuotient (n < 0) n.natAbs 1

/-- The value of a finite number in units of `2 ^ e₀`, for an `e₀` that is at most its exponent. -/
def units (neg : Bool) (m : Nat) (e e₀ : Int) : Int :=
  let v : Int := (m * Nat.pow 2 (e - e₀).toNat : Nat)
  if neg then -v else v

/-- Strictly less; false as soon as one side is not a number. -/
def lt : Binary64 → Binary64 → Bool
  | .nan, _ => false
  | _, .nan => false
  | .inf a, .inf b => a && !b
  | .inf a, .finite .. => a
  | .finite .., .inf b => !b
  | .finite na ma ea _, .finite nb mb eb _ =>
    units na ma ea (min ea eb) < units nb mb eb (min ea eb)

instance : LT Binary64 := ⟨fun a b => lt a b = true⟩

instance (a b : Binary64) : Decidable (a < b) := inferInstanceAs (Decidable (lt a b = true))

def isFinite : Binary64 → Bool
  | .finite .. => true
  | _ => false

def abs : Binary64 → Binary64
  | .nan => .nan
  | .inf _ => .inf false
  | .finite _ m e h => .finite false m e h

/-- The number `± v · 2 ^ e` rounded, for an integer `v`. -/
def ofUnits (v e : Int) : Binary64 :=
  let (p, q) := if 0 ≤ e then (v.natAbs * Nat.pow 2 e.toNat, 1)
    else (v.natAbs, Nat.pow 2 (-e).toNat)
  ofQuotient (v < 0) p q

def sub : Binary64 → Binary64 → Binary64
  | .nan, _ => .nan
  | _, .nan => .nan
  | .inf a, .inf b => if a == b then .nan else .inf a
  | .inf a, .finite .. => .inf a
  | .finite .., .inf b => .inf (!b)
  | .finite na ma ea _, .finite nb mb eb _ =>
    let e := min ea eb
    ofUnits (units na ma ea e - units nb mb eb e) e

instance : Sub Binary64 := ⟨sub⟩

def div : Binary64 → Binary64 → Binary64
  | .nan, _ => .nan
  | _, .nan => .nan
  | .inf _, .inf _ => .nan
  | .inf a, .finite nb .. => .inf (a != nb)
  | .finite na .., .inf b => zero (na != b)
  | .finite na ma ea _, .finite nb mb eb _ =>
    if mb = 0 then if ma = 0 then .nan else .inf (na != nb)
    else
      let (p, q) := scaled ma mb (eb - ea)
      ofQuotient (na != nb) p q

instance : Div Binary64 := ⟨div⟩

/-- The nearest integer, a half away from zero. -/
def round : Binary64 → Binary64
  | .finite neg m e h =>
    if 0 ≤ e then .finite neg m e h
    else
      let d := Nat.pow 2 (-e).toNat
      ofQuotient neg ((2 * m + d) / (2 * d)) 1
  | x => x

/-- The integer part, held to the 64-bit signed range; zero for what is not a number. -/
def toInt64 : Binary64 → Int
  | .nan => 0
  | .inf neg => if neg then -9223372036854775808 else 9223372036854775807
  | .finite neg m e _ =>
    let v : Int := (if 0 ≤ e then m * Nat.pow 2 e.toNat else m / Nat.pow 2 (-e).toNat : Nat)
    max (-9223372036854775808) (min 9223372036854775807 (if neg then -v else v))

end Binary64

end Concord
