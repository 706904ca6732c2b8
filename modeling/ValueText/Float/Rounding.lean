import ValueText.Float.Binary

/-!
# Rounding to the nearest datum

A ratio of natural numbers is rounded to the nearest multiple of a power of two, a half going
to the even neighbour, in exact arithmetic.  Since a code grows with its magnitude, and the
code after the greatest one of a binade is the least one of the next, the rounded multiple can
simply be added to the code at which the binade begins; what comes out at or beyond the code
of infinity is infinite.

A decimal is rounded by way of the ratio that it stands for.
-/

namespace ValueText

/-- The natural number nearest to `num / den`; halfway between two of them, the even one. -/
def nearestEven (num den : Nat) : Nat :=
  let q := num / den
  let r := num % den
  if 2 * r < den then q
  else if den < 2 * r then q + 1
  else q + q % 2

namespace FloatType

/-- The code of the datum nearest to the magnitude `num / den`. -/
def nearestCode (f : FloatType) (num den : Nat) : Nat :=
  let scaled := num * Nat.pow 2 f.unitBits
  let scale := (scaled / den).log2 - f.fractionBits
  min f.infinityCode
    (scale * f.binade + nearestEven scaled (den * Nat.pow 2 scale))

/-- What a ratio is rounded to fits behind the sign bit. -/
theorem nearestCode_lt (f : FloatType) (num den : Nat) :
    f.nearestCode num den < f.codeCount := by
  exact Nat.lt_of_le_of_lt (Nat.min_le_left _ _) (Nat.lt_of_succ_lt f.infinityCode_add_one_lt)

/-- A decimal with a greater exponent than this is infinite unless it is zero, and a decimal
    below ten to the power of minus this is rounded to zero. -/
def decimalReach : FloatType → Nat
  | f32 => 64
  | f64 => 400

end FloatType

namespace Binary

variable {f : FloatType}

/-- The datum nearest to `num / den`, or to its negative. -/
def ofRatio (f : FloatType) (negative : Bool) (num den : Nat) : Binary f :=
  ⟨negative, f.nearestCode num den, f.nearestCode_lt num den⟩

/-- The datum nearest to `digits * 10 ^ exponent`, or to its negative.  `count` is a bound on
    the number of digits.  Exponents so far out that they cannot matter are drawn in first, so
    that the powers of ten stay small. -/
def ofDecimal (f : FloatType) (negative : Bool) (digits count : Nat) (exponent : Int) :
    Binary f :=
  let e := max (-((count + f.decimalReach : Nat) : Int)) (min exponent f.decimalReach)
  ofRatio f negative (digits * Nat.pow 10 e.toNat) (Nat.pow 10 (-e).toNat)

end Binary

end ValueText
