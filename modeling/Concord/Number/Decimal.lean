import Concord.Number.Binary64
import Concord.Text.Class

/-! Reading rounds the exact decimal once. Writing takes the fewest significant digits that read
back to the number and, among those, the nearest. -/
namespace Concord.Binary64

def digitsValue (ds : List Char) : Nat := ds.foldl (fun n c => 10 * n + (c.toNat - '0'.toNat)) 0

/-- The number nearest to `± n · 10 ^ k`. Exponents far out of range are settled by size alone. -/
def ofDecimal (neg : Bool) (n : Nat) (k : Int) : Binary64 :=
  if n = 0 then zero neg
  else
    let magnitude : Int := (Nat.toDigits 10 n).length + k
    if 400 < magnitude then .inf neg
    else if magnitude < -400 then zero neg
    else if 0 ≤ k then ofQuotient neg (n * Nat.pow 10 k.toNat) 1
    else ofQuotient neg n (Nat.pow 10 (-k).toNat)

def exponent? : List Char → Option Int
  | [] => some 0
  | c :: rest =>
    if c == 'e' || c == 'E' then
      let (neg, ds) := match rest with
        | '-' :: ds => (true, ds)
        | '+' :: ds => (false, ds)
        | ds => (false, ds)
      if ds.isEmpty || !ds.all Text.isAsciiDigit then none
      else
        let v : Int := digitsValue ds
        some (if neg then -v else v)
    else none

/-- A decimal without its sign: digits, a point with digits, an exponent, or the name of a number
that is not finite. -/
def ofUnsigned? (neg : Bool) (t : List Char) : Option Binary64 :=
  let name := t.map fun c => if Text.isAsciiUpper c then Char.ofNat (c.toNat + 32) else c
  if name == ['i', 'n', 'f'] || name == ['i', 'n', 'f', 'i', 'n', 'i', 't', 'y'] then some (.inf neg)
  else if name == ['n', 'a', 'n'] then some .nan
  else
    let whole := t.takeWhile Text.isAsciiDigit
    let rest := t.dropWhile Text.isAsciiDigit
    let (part, rest) := match rest with
      | '.' :: r => (r.takeWhile Text.isAsciiDigit, r.dropWhile Text.isAsciiDigit)
      | r => ([], r)
    if whole.isEmpty && part.isEmpty then none
    else (exponent? rest).map fun k => ofDecimal neg (digitsValue (whole ++ part)) (k - part.length)

def ofText? : List Char → Option Binary64
  | '-' :: t => ofUnsigned? true t
  | '+' :: t => ofUnsigned? false t
  | t => ofUnsigned? false t

def ofString? (s : String) : Option Binary64 := ofText? s.toList

def digitCount (n : Nat) : Nat := (Nat.toDigits 10 n).length

/-- The exponent `k` with `10 ^ k ≤ p / q < 10 ^ (k + 1)`, for positive `p` and `q`. -/
def decimalExponent (p q : Nat) : Int :=
  if q ≤ p then digitCount (p / q) - 1
  else
    -- q / p, rounded up, has one more digit than the leading zeros unless it is a power of ten
    let up := (q + p - 1) / p
    let k := digitCount up
    if up = Nat.pow 10 (k - 1) then -((k : Int) - 1) else -(k : Int)

/-- `n / d` scaled by `10 ^ (-t)`, as a fraction. -/
def tenScaled (n d : Nat) (t : Int) : Nat × Nat :=
  if 0 ≤ t then (n, d * Nat.pow 10 t.toNat) else (n * Nat.pow 10 (-t).toNat, d)

/-- Whether the decimal `x · 10 ^ t` lies in the interval of reals that round to `m · 2 ^ e`. -/
def readsBack (m : Nat) (e : Int) (x : Nat) (t : Int) : Bool :=
  -- in quarters of the last place: the interval is (4m - below, 4m + 2)
  let below := if m = Nat.pow 2 52 && (-1074) < e then 1 else 2
  let (p, q) := if 0 ≤ t then (x * Nat.pow 10 t.toNat, 1) else (x, Nat.pow 10 (-t).toNat)
  let (n, d) := scaled (4 * p) q e
  if m % 2 = 0 then (4 * m - below) * d ≤ n && n ≤ (4 * m + 2) * d
  else (4 * m - below) * d < n && n < (4 * m + 2) * d

/-- The fewest digits that read back to `m · 2 ^ e`: an integer `x` and an exponent `t` with the
decimal `x · 10 ^ t`. Tries the two neighbours on the grid of `n` digits, then a finer grid. -/
def shortestFrom (m : Nat) (e : Int) (p q : Nat) (k : Int) : (fuel n : Nat) → Nat × Int
  | 0, n =>
    let t := k - n + 1
    let (a, b) := tenScaled p q t
    (a / b, t)
  | fuel + 1, n =>
    let t := k - n + 1
    let (a, b) := tenScaled p q t
    let low := a / b
    let lowOk := readsBack m e low t
    let highOk := readsBack m e (low + 1) t
    if lowOk && highOk then (if 2 * (a % b) < b then low else if b < 2 * (a % b) then low + 1
      else if low % 2 = 0 then low else low + 1, t)
    else if lowOk then (low, t)
    else if highOk then (low + 1, t)
    else shortestFrom m e p q k fuel (n + 1)

def dropZeros : (fuel : Nat) → Nat → Int → Nat × Int
  | 0, x, t => (x, t)
  | fuel + 1, x, t => if x ≠ 0 && x % 10 = 0 then dropZeros fuel (x / 10) (t + 1) else (x, t)

def shortest (m : Nat) (e : Int) : Nat × Int :=
  let (p, q) := if 0 ≤ e then (m * Nat.pow 2 e.toNat, 1) else (m, Nat.pow 2 (-e).toNat)
  let (x, t) := shortestFrom m e p q (decimalExponent p q) 17 1
  dropZeros 18 x t

def zeros (n : Nat) : List Char := List.replicate n '0'

/-- Digits with the decimal point placed for the exponent `t`, without an exponent mark. -/
def positional (ds : List Char) (t : Int) : List Char :=
  if 0 ≤ t then ds ++ zeros t.toNat
  else
    let places := (-t).toNat
    if places < ds.length then ds.take (ds.length - places) ++ '.' :: ds.drop (ds.length - places)
    else '0' :: '.' :: zeros (places - ds.length) ++ ds

/-- The shortest decimal, never with an exponent mark. -/
def toText : Binary64 → List Char
  | .nan => ['N', 'a', 'N']
  | .inf neg => (if neg then ['-'] else []) ++ ['i', 'n', 'f']
  | .finite neg m e _ =>
    let (x, t) := if m = 0 then (0, 0) else shortest m e
    (if neg then ['-'] else []) ++ positional (Nat.toDigits 10 x) t

def toString (x : Binary64) : String := String.ofList x.toText

/-- The shortest decimal of a finite number with a point or an exponent mark always: positional
from `10 ^ -5` up to `10 ^ 16`, and scientific beyond. -/
def toPointed : Binary64 → List Char
  | .finite neg m e _ =>
    let (x, t) := if m = 0 then (0, 0) else shortest m e
    let ds := Nat.toDigits 10 x
    let upTo := ds.length + t
    let body :=
      if 0 ≤ t && upTo ≤ 16 then positional ds t ++ ['.', '0']
      else if -5 < upTo && upTo ≤ 16 then positional ds t
      else
        let mantissa := match ds with
          | [d] => [d]
          | d :: rest => d :: '.' :: rest
          | [] => []
        mantissa ++ 'e' :: (ToString.toString (upTo - 1)).toList
    (if neg then ['-'] else []) ++ body
  | x => x.toText

/-- Exactly `places` decimals, a half going to the even neighbour. -/
def toFixed (places : Nat) : Binary64 → List Char
  | .finite neg m e _ =>
    let (n, d) := scaled (m * Nat.pow 10 places) 1 (-e)
    let x := roundQuotient n d
    let ds := Nat.toDigits 10 x
    let ds := zeros (places + 1 - ds.length) ++ ds
    (if neg then ['-'] else []) ++ positional ds (-(places : Int))
  | x => x.toText

end Concord.Binary64
