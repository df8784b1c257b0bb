import GatedMaze.Decimal.Nearest

/-!
# Shortest decimal text of a double

A double is written with the fewest digits that no other double is nearer to, and of those digits
with the nearest ones. Where the point goes is a choice of the format: values from a ten-thousandth
up to sixteen digits before the point are written out, others with an exponent.
-/

namespace GatedMaze.Decimal

/-- The value `digits * 10 ^ exponent`. -/
structure Digits where
  digits : Nat
  exponent : Int
  deriving DecidableEq, Repr

/-- Four times the mantissas of the ends of the interval of reals that round to a double. The
lower end is nearer below a power of two. -/
def ends (v : Dyadic) : Nat × Nat :=
  let low :=
    if v.mantissa = fullMantissa ∧ minExponent < v.exponent then 4 * v.mantissa - 1
    else 4 * v.mantissa - 2
  (low, 4 * v.mantissa + 2)

/-- The number of decimal digits of a positive number. -/
def digitCount (n : Nat) : Nat := (Nat.toDigits 10 n).length

/-- The largest `k` with `10 ^ k ≤ n / d`, for positive `n` and `d`. -/
def floorLog10 (n d : Nat) : Int :=
  if d ≤ n then (digitCount (n / d) : Int) - 1
  else
    let len := digitCount (d / n)
    if d ≤ n * Nat.pow 10 (len - 1) then 1 - (len : Int) else -(len : Int)

/-- The point of the grid of multiples of `10 ^ unit` that stands for a double, if the grid has one
in the interval of the double: the nearest to the double, the even one of two. -/
def onGrid? (v : Dyadic) (unit : Int) : Option Digits :=
  let (low, high) := ends v
  -- everything is counted in quarters of the double's unit, and both powers are multiplied away
  let e := v.exponent - 2
  let two := Nat.pow 2 e.natAbs
  let ten := Nat.pow 10 unit.natAbs
  let up (m : Nat) : Nat := (if 0 ≤ e then m * two else m) * (if 0 ≤ unit then 1 else ten)
  let step := (if 0 ≤ e then 1 else two) * (if 0 ≤ unit then ten else 1)
  let value := up (4 * v.mantissa)
  let closed := v.mantissa % 2 = 0
  let inside (d : Nat) : Bool :=
    if closed then up low ≤ d * step && d * step ≤ up high
    else up low < d * step && d * step < up high
  let d := value / step
  match inside d, inside (d + 1) with
  | true, true => some ⟨roundDiv value step, unit⟩
  | true, false => some ⟨d, unit⟩
  | false, true => some ⟨d + 1, unit⟩
  | false, false => none

/-- The digits of the first of the coming grids that has a point for the double; each grid has one
digit more than the last. Seventeen digits are always enough. -/
def firstGrid (v : Dyadic) : Nat → Int → Digits
  | 0, unit => ⟨0, unit⟩
  | n + 1, unit => (onGrid? v unit).getD (firstGrid v n (unit - 1))

/-- The shortest digits of a positive double. -/
def shortest (v : Dyadic) : Digits :=
  let (n, d) := scaled v.mantissa 1 (-v.exponent)
  firstGrid v 18 (floorLog10 n d)

/-- Digits without the zeros at their end. -/
def dropZeros (ds : List Char) : List Char := (ds.reverse.dropWhile (· == '0')).reverse

/-- An exponent with its sign and at least two digits. -/
def exponentText (e : Int) : List Char :=
  let ds := Nat.toDigits 10 e.natAbs
  (if e < 0 then '-' else '+') :: (if ds.length < 2 then '0' :: ds else ds)

/-- Digits `ds` with the point after the first `point` of them; zeros fill up. -/
def placed (ds : List Char) (point : Int) : List Char :=
  if -4 < point ∧ point ≤ 16 then
    if point ≤ 0 then '0' :: '.' :: List.replicate point.natAbs '0' ++ ds
    else if (ds.length : Int) ≤ point then
      ds ++ List.replicate (point.toNat - ds.length) '0' ++ ['.', '0']
    else ds.take point.toNat ++ '.' :: ds.drop point.toNat
  else
    let tail := ds.drop 1
    ds.take 1 ++ (if tail.isEmpty then [] else '.' :: tail) ++ 'e' :: exponentText (point - 1)

/-- The text of the double nearest to `n / d`, for positive `d`. -/
def quotientText (n : Int) (d : Nat) : String :=
  if n = 0 then "0.0"
  else
    let v := shortest (nearest n.natAbs d)
    let ds := Nat.toDigits 10 v.digits
    let text := placed (dropZeros ds) (ds.length + v.exponent)
    String.ofList (if n < 0 then '-' :: text else text)

end GatedMaze.Decimal
