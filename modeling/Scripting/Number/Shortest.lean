set_option autoImplicit false

/-! # The shortest decimal that reads back

A binary floating-point number stands for all the reals that round to it. Its shortest decimal is
the one with the fewest digits among those reals, the nearest to the number if there are several
with that many digits, and of two equally near the one with an even last digit.

The search is exact: for one digit, two digits and so on, only the two neighbours of the number on
the grid of decimals with that many digits have to be compared with the ends of the interval, and
seventeen digits are always enough. -/

namespace Scripting.Number

/-- The decimal `digits · 10 ^ scale`. -/
structure Decimal where
  digits : Nat
  scale : Int
  deriving DecidableEq, Repr

/-- The reals that round to a positive binary number: the number `value` and the two ends of the
    interval, `low` and `high`, all over the denominator `den`, and whether the ends themselves
    round to it. -/
structure RoundingInterval where
  low : Nat
  value : Nat
  high : Nat
  den : Nat
  closed : Bool

/-- The exponent of the smallest positive number. -/
def leastExponent : Int := -1074

/-- The mantissa of a power of two that has all its digits. -/
def leastFullMantissa : Nat := Nat.pow 2 52

/-- The interval of `mantissa · 2 ^ exponent`: half a unit of the last place to either side, but a
    quarter below a power of two, where the next smaller number is only half as far away. -/
def RoundingInterval.of (mantissa : Nat) (exponent : Int) : RoundingInterval :=
  -- in units of a quarter of the last place, so that both ends are whole
  let factor := Nat.pow 2 (exponent - 2).toNat
  let below := if mantissa = leastFullMantissa ∧ exponent ≠ leastExponent then 1 else 2
  { low := (4 * mantissa - below) * factor
    value := 4 * mantissa * factor
    high := (4 * mantissa + 2) * factor
    den := Nat.pow 2 (2 - exponent).toNat
    closed := mantissa % 2 = 0 }

/-- The interval in units of `10 ^ scale`. -/
def RoundingInterval.inUnits (r : RoundingInterval) (scale : Int) : RoundingInterval :=
  let up := Nat.pow 10 (-scale).toNat
  { r with
    low := r.low * up
    value := r.value * up
    high := r.high * up
    den := r.den * Nat.pow 10 scale.toNat }

/-- Whether the whole number `n` lies in the interval `r`. -/
def RoundingInterval.holds (r : RoundingInterval) (n : Nat) : Bool :=
  if r.closed then r.low ≤ n * r.den && n * r.den ≤ r.high
  else r.low < n * r.den && n * r.den < r.high

/-- The whole number in the interval `r` that is nearest to its value; of two equally near ones the
    even one. -/
def RoundingInterval.nearest? (r : RoundingInterval) : Option Nat :=
  let n := r.value / r.den
  let fromBelow := r.value - n * r.den
  let fromAbove := (n + 1) * r.den - r.value
  match r.holds n, r.holds (n + 1) with
  | true, true =>
    some (if fromBelow < fromAbove ∨ (fromBelow = fromAbove ∧ n % 2 = 0) then n else n + 1)
  | true, false => some n
  | false, true => some (n + 1)
  | false, false => none

/-- The number of decimal digits of a positive whole number. -/
def digitCount (n : Nat) : Nat :=
  (Nat.toDigits 10 n).length

/-- The place of the decimal point relative to the first digit of the value of `r`: the least `k`
    such that the value is below `10 ^ k`. -/
def RoundingInterval.magnitude (r : RoundingInterval) : Int :=
  if r.den ≤ r.value then digitCount (r.value / r.den)
  else 1 - digitCount ((r.den - 1) / r.value)

/-- The best decimal with `count` digits, if one lies in the interval `r`. -/
def RoundingInterval.decimal? (r : RoundingInterval) (count : Nat) : Option Decimal :=
  let scale := r.magnitude - count
  ((r.inUnits scale).nearest?).map fun digits => ⟨digits, scale⟩

/-- As many digits as `shortest` ever needs. -/
def mostDigits : Nat := 17

/-- The shortest decimal of `mantissa · 2 ^ exponent`. -/
def shortest (mantissa : Nat) (exponent : Int) : Decimal :=
  let r := RoundingInterval.of mantissa exponent
  let found := (List.range mostDigits).findSome? fun i => r.decimal? (i + 1)
  found.getD ⟨mantissa, exponent⟩

end Scripting.Number
