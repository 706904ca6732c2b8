import ValueText.Float.Rounding

/-!
# The shortest decimal that reads back

The magnitudes that round to a given code form an interval around the magnitude of the code,
bounded by the midpoints to its two neighbours; the midpoints belong to it exactly if the code
is even.  Among the decimals in that interval we take one on the coarsest grid of powers of
ten, which has the fewest digits, and of the two candidates on that grid the nearer one.  Of
two equally near ones it is the greater.
-/

namespace ValueText

/-- A decimal `digits * 10 ^ exponent`. -/
structure Decimal where
  digits : Nat
  exponent : Int
  deriving DecidableEq, Repr

namespace FloatType

/-- The decimal on the grid of multiples of `10 ^ exponent` that rounds to a code and is
    nearest to its magnitude, if any does.  Only the two neighbours of the magnitude on the
    grid can be the nearest.  All amounts are compared in half units. -/
def onGrid? (f : FloatType) (code : Nat) (exponent : Int) : Option Nat :=
  let up := Nat.pow 10 (-exponent).toNat
  let step := Nat.pow 2 (f.unitBits + 1) * Nat.pow 10 exponent.toNat
  let low := (f.units (code - 1) + f.units code) * up
  let middle := 2 * f.units code * up
  let high := (f.units code + f.units (code + 1)) * up
  let below := middle / step
  let even := code % 2 == 0
  let downFits := low < below * step || even && low == below * step
  let upFits := (below + 1) * step < high || even && (below + 1) * step == high
  if downFits && upFits then
    if 2 * (middle - below * step) < step then some below else some (below + 1)
  else if downFits then some below
  else if upFits then some (below + 1)
  else none

/-- An exponent such that ten to its power is not less than any magnitude that rounds to the
    code.  It is found from the length of the binary numeral, as one bit is worth between
    `3 / 10` and `31 / 100` of a decimal digit. -/
def gridStart (f : FloatType) (code : Nat) : Int :=
  let bits : Int := (f.units code).log2 + 1 - f.unitBits
  if bits ≤ 0 then -(-bits * 3 / 10) else bits * 31 / 100 + 1

/-- Looks for a decimal on ever finer grids. -/
def searchGrids (f : FloatType) (code : Nat) : Nat → Int → Decimal
  | 0, exponent => ⟨2 * f.units code * Nat.pow 10 (-exponent).toNat /
      (Nat.pow 2 (f.unitBits + 1) * Nat.pow 10 exponent.toNat), exponent⟩
  | fuel + 1, exponent =>
    match f.onGrid? code exponent with
    | some digits => ⟨digits, exponent⟩
    | none => searchGrids f code fuel (exponent - 1)

/-- The shortest decimal that rounds to a code.  A grid finer than half a unit always has a
    point between the magnitude of the code and the midpoint above it, so the search ends. -/
def shortest (f : FloatType) (code : Nat) : Decimal :=
  f.searchGrids code (f.gridStart code + f.unitBits + 2).toNat (f.gridStart code)

end FloatType

end ValueText
