/-!
# Quotients in double precision

A double is a mantissa of at most 53 bits times a power of two. The double nearest to a quotient
of natural numbers is found in exact arithmetic.
-/

namespace GatedMaze.Decimal

/-- The value `mantissa * 2 ^ exponent`. -/
structure Dyadic where
  mantissa : Nat
  exponent : Int
  deriving DecidableEq, Repr

/-- The whole number nearest to `n / d`, the even one of two. -/
def roundDiv (n d : Nat) : Nat :=
  let q := n / d
  let r := n % d
  if 2 * r < d then q else if d < 2 * r then q + 1 else q + q % 2

/-- The least exponent of a double. -/
def minExponent : Int := -1074

/-- The greatest exponent of a double. -/
def maxExponent : Int := 971

/-- The least mantissa of a double above the smallest ones. -/
def fullMantissa : Nat := Nat.pow 2 52

/-- `n / d` divided by `2 ^ e`, as a quotient. -/
def scaled (n d : Nat) (e : Int) : Nat × Nat :=
  if 0 ≤ e then (n, d * Nat.pow 2 e.toNat) else (n * Nat.pow 2 (-e).toNat, d)

/-- The largest `e` with `2 ^ e ≤ n / d`, for positive `n` and `d`. -/
def floorLog2 (n d : Nat) : Int :=
  let e := (n.log2 : Int) - d.log2
  let (a, b) := scaled n d e
  if b ≤ a then e else e - 1

/-- The double nearest to `n / d` for positive `d`, the one with an even mantissa of two. Quotients
beyond the largest double keep an exponent of their own. -/
def nearest (n d : Nat) : Dyadic :=
  if n = 0 then ⟨0, 0⟩
  else
    let e := max (floorLog2 n d - 52) minExponent
    let (a, b) := scaled n d e
    -- rounding up may reach the next power of two
    let m := roundDiv a b
    if m = 2 * fullMantissa then ⟨fullMantissa, e + 1⟩ else ⟨m, e⟩

/-- Whether a nearest double is one that there is. -/
def Dyadic.isFinite (v : Dyadic) : Bool := v.exponent ≤ maxExponent

end GatedMaze.Decimal
