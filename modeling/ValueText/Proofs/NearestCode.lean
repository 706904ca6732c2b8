import Mathlib
import ValueText.Float.Rounding

/-!
# Rounding yields the nearest datum

The magnitudes that round to a code form an interval, which reaches from the midpoint below the
magnitude of the code to the midpoint above it, and which contains its ends exactly if the code
is even.  These intervals cover all magnitudes and do not overlap (`RoundsTo.unique`), so that
rounding is described by them: `nearestCode` is the code whose interval contains the ratio, or
the code of infinity if there is none below that.  Here codes go on beyond that of infinity as if
the exponent field had no bound; the interval of the code of infinity then begins where
overflow does.

Amounts are compared in half units, so that midpoints are whole numbers.

## Key results

- `FloatType.RoundsTo.unique`, `FloatType.exists_roundsTo`: a magnitude rounds to just one code
- `FloatType.exists_nearestCode`: rounding a ratio finds that code
- `Binary.ofDecimal_code`: drawing in the exponent of a decimal does not change it
- `Binary.isNearest_of_roundsTo`: the code makes the nearest datum, with ties to even
- `Binary.IsNearest.unique`: there is just one such datum of either sign
-/

namespace ValueText

namespace FloatType

variable {f : FloatType}

/-! ## Magnitudes -/

/-- The codes of a scale are even in number, so a code is even exactly if its place in its scale is. -/
theorem binade_even (f : FloatType) : f.binade % 2 = 0 := by cases f <;> decide +kernel

/-- The code of infinity is even, so what is midway between it and the last number overflows. -/
theorem infinityCode_even (f : FloatType) : f.infinityCode % 2 = 0 := by
  cases f <;> decide +kernel

theorem infinityCode_pos (f : FloatType) : 0 < f.infinityCode := by cases f <;> decide +kernel

/-- The magnitudes of a scale are evenly spaced, up to and including the least one of the next
    scale. -/
theorem units_scale_add {s m : Nat} (hm : m ≤ 2 * f.binade) (hs : s = 0 ∨ f.binade ≤ m) :
    f.units (s * f.binade + m) = m * 2 ^ s := by
  have hpos := f.binade_pos
  rcases Nat.lt_or_ge m f.binade with hlt | hle
  · -- Subnormal: the code is the magnitude.
    obtain rfl : s = 0 := hs.resolve_right (Nat.not_le.2 hlt)
    rw [Nat.zero_mul, Nat.zero_add, units, if_pos hlt, pow_zero, Nat.mul_one]
  · have hnot : ¬s * f.binade + m < f.binade := by omega
    rw [units, if_neg hnot, scale, Nat.pow_eq]
    rcases Nat.lt_or_ge m (2 * f.binade) with hlt2 | hge2
    · -- The exponent field is one more than the scale, and the fraction lacks the leading bit.
      have hcode : s * f.binade + m = (m - f.binade) + f.binade * (s + 1) := by
        rw [Nat.mul_comm s, Nat.mul_succ]
        omega
      rw [hcode, Nat.add_mul_mod_self_left, Nat.add_mul_div_left _ _ hpos,
        Nat.mod_eq_of_lt (by omega), Nat.div_eq_of_lt (by omega), Nat.zero_add,
        Nat.add_sub_cancel, Nat.add_sub_cancel' hle]
    · -- The least magnitude of the next scale, with a fraction of zero.
      obtain rfl : m = 2 * f.binade := Nat.le_antisymm hm hge2
      have hcode : s * f.binade + 2 * f.binade = f.binade * (s + 2) := by ring
      rw [hcode, Nat.mul_mod_right, Nat.mul_div_cancel_left _ hpos, Nat.add_zero]
      have hscale : s + 2 - 1 = s + 1 := rfl
      rw [hscale]
      ring

/-- Every code belongs to a scale. -/
theorem exists_scale_add (f : FloatType) (code : Nat) :
    ∃ s m, code = s * f.binade + m ∧ m < 2 * f.binade ∧ (s = 0 ∨ f.binade ≤ m) := by
  have hpos := f.binade_pos
  have hmod := Nat.mod_lt code hpos
  have hdiv := Nat.div_add_mod code f.binade
  -- The first scale has the subnormal codes; in all others the leading bit is implied.
  cases hquot : code / f.binade with
  | zero =>
    refine ⟨0, code, by omega, ?_, .inl rfl⟩
    rw [hquot] at hdiv
    omega
  | succ s =>
    refine ⟨s, f.binade + code % f.binade, ?_, by omega, .inr (by omega)⟩
    rw [hquot, Nat.mul_succ] at hdiv
    rw [Nat.mul_comm s]
    omega

/-- The magnitudes of the codes, in units, are in the order of the codes. -/
theorem units_strictMono (f : FloatType) : StrictMono f.units := by
  refine strictMono_nat_of_lt_succ fun code => ?_
  obtain ⟨s, m, rfl, hm, hs⟩ := f.exists_scale_add code
  rw [Nat.add_assoc, units_scale_add hm.le hs, units_scale_add hm (hs.imp_right (by omega))]
  exact Nat.mul_lt_mul_of_pos_right m.lt_succ_self (Nat.two_pow_pos s)

/-- The magnitude of a code. -/
def magnitude (f : FloatType) (code : Nat) : ℚ := f.units code / 2 ^ f.unitBits

@[simp] theorem units_zero (f : FloatType) : f.units 0 = 0 := if_pos f.binade_pos

theorem magnitude_zero (f : FloatType) : f.magnitude 0 = 0 := by simp [magnitude]

theorem magnitude_nonneg (f : FloatType) (code : Nat) : 0 ≤ f.magnitude code :=
  div_nonneg (Nat.cast_nonneg _) (by positivity)

theorem magnitude_strictMono (f : FloatType) : StrictMono f.magnitude := fun _ _ h =>
  div_lt_div_of_pos_right (Nat.cast_lt.2 (f.units_strictMono h)) (by positivity)

/-! ## The interval of a code -/

/-- The midpoint below the magnitude of a code in half units. -/
def lowerEnd (f : FloatType) (code : Nat) : Nat := f.units (code - 1) + f.units code

/-- The midpoint above the magnitude of a code in half units. -/
def upperEnd (f : FloatType) (code : Nat) : Nat := f.units code + f.units (code + 1)

/-- An amount in half units. -/
def halfUnits (f : FloatType) (q : ℚ) : ℚ := q * 2 ^ (f.unitBits + 1)

/-- Whether a magnitude is in the interval of a code, which contains its ends if the code is even.
    The interval of zero has no lower end but zero itself, as `code - 1` is then zero again. -/
structure RoundsTo (f : FloatType) (code : Nat) (q : ℚ) : Prop where
  lower : (f.lowerEnd code : ℚ) ≤ f.halfUnits q
  upper : f.halfUnits q ≤ f.upperEnd code
  even : f.halfUnits q = f.lowerEnd code ∨ f.halfUnits q = f.upperEnd code → code % 2 = 0

theorem lowerEnd_zero (f : FloatType) : f.lowerEnd 0 = 0 := by simp [lowerEnd]

/-- The interval of zero ends at half of a unit. -/
theorem upperEnd_zero (f : FloatType) : f.upperEnd 0 = 1 := by cases f <;> decide +kernel

/-- The interval of a code begins where that of the code before it ends. -/
theorem lowerEnd_succ (f : FloatType) (code : Nat) : f.lowerEnd (code + 1) = f.upperEnd code := rfl

theorem lowerEnd_le_double (f : FloatType) (code : Nat) : f.lowerEnd code ≤ 2 * f.units code := by
  have := f.units_strictMono.monotone (Nat.sub_le code 1)
  rw [lowerEnd]
  omega

theorem double_lt_upperEnd (f : FloatType) (code : Nat) : 2 * f.units code < f.upperEnd code := by
  have := f.units_strictMono (Nat.lt_add_one code)
  rw [upperEnd]
  omega

/-- The midpoint between a code and any smaller one is not above the lower end. -/
theorem units_add_units_le_lowerEnd {code code' : Nat} (h : code' < code) :
    f.units code' + f.units code ≤ f.lowerEnd code :=
  Nat.add_le_add_right (f.units_strictMono.monotone (Nat.le_sub_one_of_lt h)) _

/-- The midpoint between a code and any greater one is not below the upper end. -/
theorem upperEnd_le_units_add_units {code code' : Nat} (h : code < code') :
    f.upperEnd code ≤ f.units code + f.units code' :=
  Nat.add_le_add_left (f.units_strictMono.monotone h) _

theorem upperEnd_strictMono (f : FloatType) : StrictMono f.upperEnd := fun _ _ h =>
  Nat.add_lt_add (f.units_strictMono h) (f.units_strictMono (Nat.succ_lt_succ h))

theorem lowerEnd_mono (f : FloatType) : Monotone f.lowerEnd := fun _ _ h =>
  Nat.add_le_add (f.units_strictMono.monotone (Nat.sub_le_sub_right h 1))
    (f.units_strictMono.monotone h)

theorem halfUnits_le_halfUnits {q r : ℚ} (h : q ≤ r) : f.halfUnits q ≤ f.halfUnits r :=
  mul_le_mul_of_nonneg_right h (by positivity)

theorem halfUnits_lt_halfUnits {q r : ℚ} : f.halfUnits q < f.halfUnits r ↔ q < r :=
  mul_lt_mul_iff_left₀ (by positivity)

/-- A number is known by its amount of half units. -/
theorem halfUnits_inj {q r : ℚ} : f.halfUnits q = f.halfUnits r ↔ q = r :=
  mul_left_inj' (by positivity)

/-- The magnitude of a code has twice as many half units as units. -/
theorem halfUnits_magnitude (code : Nat) : f.halfUnits (f.magnitude code) = 2 * f.units code := by
  rw [halfUnits, magnitude, pow_succ, ← mul_assoc, div_mul_cancel₀ _ (by positivity), mul_comm]

/-- Distances to magnitudes can be compared in half units. -/
theorem halfUnits_abs_sub (code : Nat) (q : ℚ) :
    f.halfUnits |f.magnitude code - q| = |2 * (f.units code : ℚ) - f.halfUnits q| := by
  rw [← halfUnits_magnitude, halfUnits, halfUnits, halfUnits, ← sub_mul, abs_mul]
  congr 1
  exact (abs_of_pos (by positivity)).symm

namespace RoundsTo

variable {code code' : Nat} {q r : ℚ}

/-- Rounding is monotone. -/
theorem le (h : f.RoundsTo code q) (h' : f.RoundsTo code' r) (hqr : q ≤ r) : code ≤ code' := by
  by_contra hlt
  obtain ⟨before, rfl⟩ : ∃ before, code = before + 1 := ⟨code - 1, by omega⟩
  have hle : code' ≤ before := by omega
  have hends : (f.upperEnd code' : ℚ) ≤ f.upperEnd before := by
    exact_mod_cast f.upperEnd_strictMono.monotone hle
  -- The two intervals have at most an end in common, and then both codes are even.
  have hlower := h.lower
  rw [lowerEnd_succ] at hlower
  have hhalf := halfUnits_le_halfUnits (f := f) hqr
  have hupper := h'.upper
  have heq : f.upperEnd code' = f.upperEnd before := by
    have : (f.upperEnd code' : ℚ) = f.upperEnd before := by linarith
    exact_mod_cast this
  obtain rfl := f.upperEnd_strictMono.injective heq
  have heven := h.even (.inl (by rw [lowerEnd_succ]; linarith))
  have heven' := h'.even (.inr (by linarith))
  omega

/-- A number is rounded to one code only. -/
theorem unique (h : f.RoundsTo code q) (h' : f.RoundsTo code' q) : code = code' :=
  Nat.le_antisymm (h.le h' le_rfl) (h'.le h le_rfl)

end RoundsTo

/-- The lower end of the interval of an even code rounds to it. -/
theorem roundsTo_lowerEnd {code : Nat} (h : code % 2 = 0) {q : ℚ}
    (hq : f.halfUnits q = f.lowerEnd code) : f.RoundsTo code q where
  lower := hq.ge
  upper := by
    rw [hq]
    exact_mod_cast (f.lowerEnd_le_double code).trans (f.double_lt_upperEnd code).le
  even _ := h

/-! ## Rounding a ratio -/

/-- The nearest natural number is the quotient or the next one. -/
theorem nearestEven_eq_or (num den : Nat) :
    nearestEven num den = num / den ∨ nearestEven num den = num / den + 1 := by
  have := Nat.mod_two_eq_zero_or_one (num / den)
  simp only [nearestEven]
  split
  · exact .inl rfl
  · split
    · exact .inr rfl
    · omega

/-- The nearest natural number is at most half of one away, and even if it is just that. -/
theorem nearestEven_spec (num : Nat) {den : Nat} (hden : 0 < den) :
    2 * (nearestEven num den * den) ≤ 2 * num + den ∧
      2 * num ≤ 2 * (nearestEven num den * den) + den ∧
      (2 * num + den = 2 * (nearestEven num den * den) ∨
        2 * num = 2 * (nearestEven num den * den) + den → nearestEven num den % 2 = 0) := by
  have hdiv := Nat.div_add_mod num den
  have hmod := Nat.mod_lt num hden
  have hparity := Nat.mod_two_eq_zero_or_one (num / den)
  have hzero : num / den * den = den * (num / den) := Nat.mul_comm _ _
  have hone : (num / den + 1) * den = den * (num / den) + den := by rw [Nat.mul_comm, Nat.mul_succ]
  simp only [nearestEven]
  -- Closer to the quotient, closer to the next number, or midway; then parity decides.
  split
  · rw [hzero]
    omega
  · split
    · rw [hone]
      omega
    · rcases hparity with hparity | hparity
      · rw [hparity, Nat.add_zero, hzero]
        omega
      · rw [hparity, hone]
        omega

/-- Above the magnitude of a code, the midpoint is at least half of the spacing away. -/
theorem le_upperEnd_scale_add {s n : Nat} (hn : n ≤ 2 * f.binade) (hs : s = 0 ∨ f.binade ≤ n) :
    2 * (n * 2 ^ s) + 2 ^ s ≤ f.upperEnd (s * f.binade + n) := by
  have hpos := f.binade_pos
  rw [upperEnd, units_scale_add hn hs]
  rcases Nat.lt_or_ge n (2 * f.binade) with hlt | hge
  · rw [Nat.add_assoc, units_scale_add hlt (hs.imp_right (by omega)), Nat.succ_mul n]
    omega
  · -- The next code belongs to the next scale, whose spacing is twice as large.
    obtain rfl : n = 2 * f.binade := Nat.le_antisymm hn hge
    have hnext : s * f.binade + 2 * f.binade + 1 = (s + 1) * f.binade + (f.binade + 1) := by ring
    have hunits : (f.binade + 1) * 2 ^ (s + 1) = 2 * f.binade * 2 ^ s + 2 * 2 ^ s := by ring
    rw [hnext, units_scale_add (by omega) (.inr (Nat.le_succ _)), hunits]
    omega

/-- Below the magnitude of a code, the midpoint is half of the spacing away, but nearer where the
    scale begins. -/
theorem lowerEnd_scale_add_le {s n : Nat} (hn : n ≤ 2 * f.binade) (hs : s = 0 ∨ f.binade ≤ n)
    (hne : n ≠ 0) :
    f.lowerEnd (s * f.binade + n) + 2 ^ s ≤ 2 * (n * 2 ^ s) ∨
      s ≠ 0 ∧ n = f.binade ∧ f.lowerEnd (s * f.binade + n) < 2 * (n * 2 ^ s) := by
  obtain ⟨k, rfl⟩ : ∃ k, n = k + 1 := Nat.exists_eq_succ_of_ne_zero hne
  rw [lowerEnd, units_scale_add hn hs]
  -- Within a scale the code before has the same spacing; where the scale begins it has a smaller
  -- one.
  by_cases hbegin : s = 0 ∨ f.binade ≤ k
  · have hcode : s * f.binade + (k + 1) - 1 = s * f.binade + k := rfl
    refine .inl ?_
    rw [hcode, units_scale_add (Nat.le_of_succ_le hn) hbegin, Nat.succ_mul k]
    omega
  · have hlt := f.units_strictMono (Nat.sub_one_lt (n := s * f.binade + (k + 1)) (by omega))
    rw [units_scale_add hn hs] at hlt
    exact .inr ⟨by omega, by omega, by omega⟩

/-- A ratio is in the interval of a code if its numerator is between the ends, each of them times
    the denominator. -/
theorem roundsTo_ratio {code num den : Nat} (hden : 0 < den)
    (hlower : f.lowerEnd code * den ≤ 2 * (num * 2 ^ f.unitBits))
    (hupper : 2 * (num * 2 ^ f.unitBits) ≤ f.upperEnd code * den)
    (heven : 2 * (num * 2 ^ f.unitBits) = f.lowerEnd code * den ∨
      2 * (num * 2 ^ f.unitBits) = f.upperEnd code * den → code % 2 = 0) :
    f.RoundsTo code (num / den) := by
  have hpos : (0 : ℚ) < den := Nat.cast_pos.2 hden
  -- In half units the ratio has the same denominator, so all comparisons clear it.
  have hhalf : f.halfUnits (num / den) = (2 * (num * 2 ^ f.unitBits) : Nat) / den := by
    rw [halfUnits]
    push_cast
    ring
  refine ⟨?_, ?_, ?_⟩
  · rw [hhalf, le_div_iff₀ hpos]
    exact_mod_cast hlower
  · rw [hhalf, div_le_iff₀ hpos]
    exact_mod_cast hupper
  · rw [hhalf, div_eq_iff hpos.ne', div_eq_iff hpos.ne']
    exact_mod_cast heven

/-- The scale that rounding chooses has the ratio in its range. -/
theorem rounding_scale (f : FloatType) (ratio : Nat) :
    ratio / 2 ^ (ratio.log2 - f.fractionBits) < 2 * f.binade ∧
      (ratio.log2 - f.fractionBits = 0 ∨
        f.binade ≤ ratio / 2 ^ (ratio.log2 - f.fractionBits)) := by
  have hbinade : f.binade = 2 ^ f.fractionBits := rfl
  constructor
  · rw [Nat.div_lt_iff_lt_mul (Nat.two_pow_pos _), hbinade, ← Nat.pow_succ', ← Nat.pow_add]
    exact Nat.lt_of_lt_of_le Nat.lt_log2_self (Nat.pow_le_pow_right Nat.two_pos (by omega))
  -- In any scale but the first, the leading bit of the ratio is not shifted out.
  · refine or_iff_not_imp_left.2 fun hscale => ?_
    have hne : ratio ≠ 0 := by
      rintro rfl
      exact hscale (Nat.zero_sub _)
    rw [Nat.le_div_iff_mul_le (Nat.two_pow_pos _), hbinade, ← Nat.pow_add,
      Nat.add_sub_cancel' (by omega)]
    exact Nat.log2_self_le hne

/-- The lower end of a code is not above an amount whose nearest multiple of the spacing is that
    code.  Where a scale begins, the spacing below is smaller, but there the amount is not below
    the magnitude of the code. -/
theorem lowerEnd_mul_le {amount den s n : Nat} (hden : 0 < den) (hn : n ≤ 2 * f.binade)
    (hs : s = 0 ∨ f.binade ≤ n) (hnear : 2 * (n * 2 ^ s * den) ≤ 2 * amount + 2 ^ s * den)
    (heven : 2 * amount + 2 ^ s * den = 2 * (n * 2 ^ s * den) → n % 2 = 0)
    (hbegins : s = 0 ∨ f.binade * 2 ^ s * den ≤ amount) :
    f.lowerEnd (s * f.binade + n) * den ≤ 2 * amount ∧
      (2 * amount = f.lowerEnd (s * f.binade + n) * den → n % 2 = 0) := by
  -- The lower end depends on whether there is a code below, and on whether it is of the same scale.
  rcases Nat.eq_zero_or_pos n with rfl | hpos
  · obtain rfl : s = 0 := hs.resolve_right (Nat.not_le.2 f.binade_pos)
    simp [lowerEnd_zero]
  · rcases lowerEnd_scale_add_le hn hs hpos.ne' with hbelow | ⟨hne, hbegin, hbelow⟩
    · have hbelow := Nat.mul_le_mul_right den hbelow
      rw [Nat.add_mul, Nat.mul_assoc] at hbelow
      omega
    · have hbelow := Nat.mul_lt_mul_of_pos_right hbelow hden
      have hle := hbegins.resolve_left hne
      rw [← hbegin] at hle
      rw [Nat.mul_assoc] at hbelow
      omega

/-- Rounding to a multiple of the spacing of a scale that has the ratio in its range. -/
theorem roundsTo_scale_add {num den s : Nat} (hden : 0 < den)
    (hlt : num * 2 ^ f.unitBits / (den * 2 ^ s) < 2 * f.binade)
    (hrange : s = 0 ∨ f.binade ≤ num * 2 ^ f.unitBits / (den * 2 ^ s)) :
    f.RoundsTo (s * f.binade + nearestEven (num * 2 ^ f.unitBits) (den * 2 ^ s)) (num / den) := by
  have hspacing : 0 < den * 2 ^ s := Nat.mul_pos hden (Nat.two_pow_pos s)
  obtain ⟨hlower, hupper, heven⟩ := nearestEven_spec (num * 2 ^ f.unitBits) hspacing
  have hquot := nearestEven_eq_or (num * 2 ^ f.unitBits) (den * 2 ^ s)
  generalize nearestEven (num * 2 ^ f.unitBits) (den * 2 ^ s) = n at *
  -- The nearest multiple is in the range of the scale as well, or the least one behind it.
  have hn : n ≤ 2 * f.binade := by omega
  have hs : s = 0 ∨ f.binade ≤ n := by omega
  have hmul (x : Nat) : x * (den * 2 ^ s) = x * 2 ^ s * den := by ring
  rw [hmul, Nat.mul_comm den] at hlower hupper heven
  have hbegins : s = 0 ∨ f.binade * 2 ^ s * den ≤ num * 2 ^ f.unitBits := by
    refine hrange.imp_right fun hle => ?_
    rw [← hmul]
    exact (Nat.le_div_iff_mul_le hspacing).1 hle
  -- Below and above, the interval of the code has the amount in it.
  obtain ⟨hbelow, hbelowEven⟩ :=
    lowerEnd_mul_le hden hn hs hlower (fun h => heven (.inl h)) hbegins
  have habove := Nat.mul_le_mul_right den (le_upperEnd_scale_add hn hs)
  rw [Nat.add_mul, Nat.mul_assoc] at habove
  -- A binade is even, so that the code is even exactly if the multiple is.
  have hparity : (s * f.binade + n) % 2 = n % 2 := by
    rw [Nat.add_mod, Nat.mul_mod, f.binade_even, Nat.mul_zero, Nat.zero_mod, Nat.zero_add,
      Nat.mod_mod]
  refine roundsTo_ratio hden hbelow (by omega) ?_
  rw [hparity]
  rintro (htie | htie)
  · exact hbelowEven htie
  · exact heven (.inr (by omega))

/-- Rounding a ratio finds the code that it rounds to, unless that is beyond infinity. -/
theorem exists_nearestCode (f : FloatType) (num : Nat) {den : Nat} (hden : 0 < den) :
    ∃ code, f.RoundsTo code (num / den) ∧ f.nearestCode num den = min f.infinityCode code := by
  obtain ⟨hlt, hrange⟩ := f.rounding_scale (num * 2 ^ f.unitBits / den)
  rw [Nat.div_div_eq_div_mul] at hlt hrange
  exact ⟨_, roundsTo_scale_add hden hlt hrange, rfl⟩

/-- Every magnitude rounds to a code. -/
theorem exists_roundsTo (f : FloatType) {q : ℚ} (hq : 0 ≤ q) : ∃ code, f.RoundsTo code q := by
  obtain ⟨code, hcode, -⟩ := f.exists_nearestCode q.num.toNat q.den_pos
  refine ⟨code, ?_⟩
  have hnum : ((q.num.toNat : Nat) : ℚ) = q.num := by
    exact_mod_cast Int.toNat_of_nonneg (Rat.num_nonneg.2 hq)
  rwa [hnum, Rat.num_div_den] at hcode

/-! ## The ends of the range -/

namespace RoundsTo

variable {code : Nat} {q : ℚ}

/-- What overflows begins midway between the greatest finite magnitude and the next one. -/
theorem infinityCode_le_iff (h : f.RoundsTo code q) :
    f.infinityCode ≤ code ↔ (f.lowerEnd f.infinityCode : ℚ) ≤ f.halfUnits q := by
  constructor
  · intro hle
    exact le_trans (by exact_mod_cast f.lowerEnd_mono hle) h.lower
  -- By monotonicity it is enough to know that the lower end itself is rounded to infinity.
  · intro hle
    have hend : f.halfUnits (f.lowerEnd f.infinityCode / 2 ^ (f.unitBits + 1)) =
        f.lowerEnd f.infinityCode := div_mul_cancel₀ _ (by positivity)
    refine (roundsTo_lowerEnd f.infinityCode_even hend).le h ?_
    rwa [div_le_iff₀ (by positivity)]

/-- What is rounded to zero ends midway between zero and the least positive magnitude. -/
theorem eq_zero_iff (h : f.RoundsTo code q) : code = 0 ↔ f.halfUnits q ≤ 1 := by
  constructor
  · rintro rfl
    have hupper := h.upper
    rwa [upperEnd_zero, Nat.cast_one] at hupper
  -- By monotonicity it is enough to know that the end itself is rounded to zero.
  · intro hle
    have hend : f.RoundsTo 0 (1 / 2 ^ (f.unitBits + 1)) := by
      have hhalf : f.halfUnits (1 / 2 ^ (f.unitBits + 1)) = 1 := div_mul_cancel₀ _ (by positivity)
      refine ⟨?_, ?_, fun _ => rfl⟩
      · rw [hhalf, lowerEnd_zero, Nat.cast_zero]
        exact zero_le_one
      · rw [hhalf, upperEnd_zero, Nat.cast_one]
    refine Nat.le_zero.1 (h.le hend ?_)
    rwa [le_div_iff₀ (by positivity)]

/-- No other magnitude is nearer, and if another one is as near, then the code is even. -/
theorem nearer (h : f.RoundsTo code q) {code' : Nat} (hne : code' ≠ code) :
    |f.magnitude code - q| < |f.magnitude code' - q| ∨
      |f.magnitude code - q| = |f.magnitude code' - q| ∧ code % 2 = 0 := by
  rw [← halfUnits_lt_halfUnits (f := f), ← halfUnits_inj (f := f), halfUnits_abs_sub,
    halfUnits_abs_sub]
  rcases Nat.lt_or_gt_of_ne hne with hlt | hgt
  · -- The midpoint to a smaller magnitude is not above the lower end.
    have hunits : (f.units code' : ℚ) < f.units code := by exact_mod_cast f.units_strictMono hlt
    have hend : (f.units code' + f.units code : ℚ) ≤ f.lowerEnd code := by
      exact_mod_cast units_add_units_le_lowerEnd hlt
    rcases (hend.trans h.lower).lt_or_eq with hmid | htie
    · have hproduct := mul_pos (sub_pos.2 hunits) (sub_pos.2 hmid)
      exact .inl (sq_lt_sq.1 (by linarith))
    · exact .inr ⟨abs_eq_abs.2 (.inr (by linarith)),
        h.even (.inl (le_antisymm (htie.symm.trans_le hend) h.lower))⟩
  · -- The midpoint to a greater magnitude is not below the upper end.
    have hunits : (f.units code : ℚ) < f.units code' := by exact_mod_cast f.units_strictMono hgt
    have hend : (f.upperEnd code : ℚ) ≤ f.units code + f.units code' := by
      exact_mod_cast upperEnd_le_units_add_units hgt
    rcases (h.upper.trans hend).lt_or_eq with hmid | htie
    · have hproduct := mul_pos (sub_pos.2 hunits) (sub_pos.2 hmid)
      exact .inl (sq_lt_sq.1 (by linarith))
    · exact .inr ⟨abs_eq_abs.2 (.inr (by linarith)),
        h.even (.inr (le_antisymm h.upper (hend.trans_eq htie.symm)))⟩

/-- No other code has a magnitude that is nearer. -/
theorem abs_sub_le (h : f.RoundsTo code q) (code' : Nat) :
    |f.magnitude code - q| ≤ |f.magnitude code' - q| := by
  by_cases heq : code' = code
  · rw [heq]
  · rcases h.nearer heq with hlt | ⟨htie, -⟩
    · exact hlt.le
    · exact htie.le

end RoundsTo

end FloatType

namespace Binary

variable {f : FloatType}

/-! ## Rounding a decimal -/

/-- Whatever its digits are, a decimal with so great an exponent overflows unless it is zero. -/
theorem infinityCode_le_of_reach {code digits : Nat} {exponent : Int}
    (h : f.RoundsTo code (digits * (10 : ℚ) ^ exponent)) (hpos : 0 < digits)
    (hexponent : f.decimalReach ≤ exponent) : f.infinityCode ≤ code := by
  have hreach : f.lowerEnd f.infinityCode ≤ 10 ^ f.decimalReach * 2 ^ (f.unitBits + 1) := by
    cases f <;> decide +kernel
  rw [h.infinityCode_le_iff, FloatType.halfUnits]
  -- The digits denote at least one, so the power of ten alone is beyond the range.
  calc (f.lowerEnd f.infinityCode : ℚ)
    _ ≤ 10 ^ f.decimalReach * 2 ^ (f.unitBits + 1) := by exact_mod_cast hreach
    _ = (10 : ℚ) ^ (f.decimalReach : Int) * 2 ^ (f.unitBits + 1) := by rw [zpow_natCast]
    _ ≤ (10 : ℚ) ^ exponent * 2 ^ (f.unitBits + 1) := by gcongr; norm_num
    _ ≤ digits * (10 : ℚ) ^ exponent * 2 ^ (f.unitBits + 1) := by
      gcongr
      exact le_mul_of_one_le_left (by positivity) (by exact_mod_cast hpos)

/-- Whatever its digits are, a decimal with so small an exponent is rounded to zero. -/
theorem eq_zero_of_reach {code digits count : Nat} {exponent : Int}
    (h : f.RoundsTo code (digits * (10 : ℚ) ^ exponent)) (hcount : digits < 10 ^ count)
    (hexponent : exponent ≤ -((count + f.decimalReach : Nat) : Int)) : code = 0 := by
  have hreach : 2 ^ (f.unitBits + 1) ≤ 10 ^ f.decimalReach := by cases f <;> decide +kernel
  rw [h.eq_zero_iff, FloatType.halfUnits]
  -- The digits denote less than the power of ten of their number.
  calc digits * (10 : ℚ) ^ exponent * 2 ^ (f.unitBits + 1)
    _ ≤ 10 ^ count * (10 : ℚ) ^ (-((count + f.decimalReach : Nat) : Int)) *
        10 ^ f.decimalReach := by
      gcongr
      · exact_mod_cast hcount.le
      · norm_num
      · exact_mod_cast hreach
    _ = 1 := by
      rw [zpow_neg, zpow_natCast, pow_add, mul_right_comm]
      exact mul_inv_cancel₀ (by positivity)

/-- The ratio that is rounded is the decimal, whatever the sign of its exponent. -/
theorem ratio_eq_zpow (n : Nat) (e : Int) :
    ((n * 10 ^ e.toNat : Nat) : ℚ) / ((10 ^ (-e).toNat : Nat) : ℚ) = n * (10 : ℚ) ^ e := by
  rcases le_total 0 e with he | he
  · lift e to ℕ using he
    simp
  · obtain ⟨k, rfl⟩ : ∃ k : Nat, e = -k := ⟨e.natAbs, by omega⟩
    simp [div_eq_mul_inv]

/-- A decimal is rounded as it is, although an exponent that is far out is drawn in. -/
theorem ofDecimal_code {negative : Bool} {digits count code : Nat} {exponent : Int}
    (hcount : digits < 10 ^ count) (h : f.RoundsTo code (digits * (10 : ℚ) ^ exponent)) :
    (ofDecimal f negative digits count exponent).code = min f.infinityCode code := by
  simp only [ofDecimal, ofRatio, Nat.pow_eq]
  generalize he : max (-((count + f.decimalReach : Nat) : Int)) (min exponent f.decimalReach) = e
  have hden : 0 < 10 ^ (-e).toNat := by positivity
  obtain ⟨code', hcode', heq⟩ := f.exists_nearestCode (digits * 10 ^ e.toNat) hden
  rw [ratio_eq_zpow] at hcode'
  rw [heq]
  rcases Nat.eq_zero_or_pos digits with rfl | hpos
  · rw [Nat.cast_zero, zero_mul] at h hcode'
    rw [h.unique hcode']
  · rcases lt_trichotomy exponent e with hbelow | rfl | habove
    · -- Drawn in from below, it was zero and is zero.
      obtain rfl : e = -((count + f.decimalReach : Nat) : Int) := by omega
      rw [eq_zero_of_reach h hcount hbelow.le, eq_zero_of_reach hcode' hcount le_rfl]
    · rw [h.unique hcode']
    · -- Drawn in from above, it was infinite and is infinite.
      obtain rfl : e = f.decimalReach := by omega
      rw [Nat.min_eq_left (infinityCode_le_of_reach h hpos habove.le),
        Nat.min_eq_left (infinityCode_le_of_reach hcode' hpos le_rfl)]

/-! ## The nearest datum -/

@[ext] theorem ext {x y : Binary f} (hnegative : x.negative = y.negative)
    (hcode : x.code = y.code) : x = y := by
  obtain ⟨negative, code, hlt⟩ := x
  obtain rfl : negative = y.negative := hnegative
  obtain rfl : code = y.code := hcode
  rfl

/-- A rational number with a sign of its own. -/
def signed (negative : Bool) (q : ℚ) : ℚ := if negative then -q else q

/-- What a finite datum stands for. -/
def toRat (x : Binary f) : ℚ := signed x.negative (f.magnitude x.code)

/-- Whether a datum is nearest to a number among all finite ones, and is the one with the even
    code where another one is as near. -/
structure IsNearest (x : Binary f) (q : ℚ) : Prop where
  finite : x.code < f.infinityCode
  nearest : ∀ y : Binary f, y.code < f.infinityCode → |x.toRat - q| ≤ |y.toRat - q|
  even : ∀ y : Binary f, y.code < f.infinityCode → y.toRat ≠ x.toRat →
    |x.toRat - q| = |y.toRat - q| → x.code % 2 = 0

/-- On the side of zero that a number is on, distances are those of the magnitudes; on the other
    side, zero is between. -/
theorem abs_toRat_sub {q : ℚ} (hq : 0 ≤ q) (negative : Bool) (y : Binary f) :
    y.negative = negative ∧ |y.toRat - signed negative q| = |f.magnitude y.code - q| ∨
      y.negative ≠ negative ∧ |y.toRat - signed negative q| = f.magnitude y.code + q := by
  have hsum : 0 ≤ f.magnitude y.code + q := add_nonneg (f.magnitude_nonneg _) hq
  -- By the two signs: where they agree they cancel, where they do not the distances add up.
  cases negative <;> cases hy : y.negative
  · exact .inl ⟨rfl, by rw [toRat, hy]; rfl⟩
  · refine .inr ⟨by decide, ?_⟩
    rw [toRat, hy, signed, signed, if_pos rfl, if_neg (by decide), ← neg_add', abs_neg,
      abs_of_nonneg hsum]
  · refine .inr ⟨by decide, ?_⟩
    rw [toRat, hy, signed, signed, if_neg (by decide), if_pos rfl, sub_neg_eq_add,
      abs_of_nonneg hsum]
  · refine .inl ⟨rfl, ?_⟩
    rw [toRat, hy, signed, signed, if_pos rfl, if_pos rfl, ← neg_sub', abs_neg]

/-- A datum whose code a magnitude rounds to is nearest to it, or to its negative. -/
theorem isNearest_of_roundsTo {x : Binary f} {q : ℚ} (hq : 0 ≤ q)
    (hfinite : x.code < f.infinityCode) (h : f.RoundsTo x.code q) :
    x.IsNearest (signed x.negative q) := by
  have hself : |x.toRat - signed x.negative q| = |f.magnitude x.code - q| := by
    rcases abs_toRat_sub hq x.negative x with ⟨-, hself⟩ | ⟨hne, -⟩
    · exact hself
    · exact absurd rfl hne
  -- From the other side of zero the distance is at least that of zero.
  have hzero : |f.magnitude 0 - q| = q := by
    rw [FloatType.magnitude_zero, zero_sub, abs_neg, abs_of_nonneg hq]
  have hbound := h.abs_sub_le 0
  rw [hzero] at hbound
  refine ⟨hfinite, fun y _ => ?_, fun y _ hne heq => ?_⟩
  · rw [hself]
    rcases abs_toRat_sub hq x.negative y with ⟨-, hy⟩ | ⟨-, hy⟩
    · rw [hy]
      exact h.abs_sub_le y.code
    · rw [hy]
      linarith [f.magnitude_nonneg y.code]
  · rw [hself] at heq
    rcases abs_toRat_sub hq x.negative y with ⟨hsign, hy⟩ | ⟨-, hy⟩
    · have hcode : y.code ≠ x.code := fun hcode => hne (by rw [toRat, toRat, hsign, hcode])
      rcases h.nearer hcode with hlt | ⟨-, heven⟩
      · exact absurd (heq.trans hy) hlt.ne
      · exact heven
    · -- What is as near on the other side is zero, and so zero is as near.
      rw [hy] at heq
      by_cases hcode : x.code = 0
      · rw [hcode]
      · rcases h.nearer (Ne.symm hcode) with hlt | ⟨-, heven⟩
        · rw [hzero] at hlt
          linarith [f.magnitude_nonneg y.code]
        · exact heven

/-- A sign keeps the order of the magnitudes or reverses it. -/
theorem signed_strictMono_or (negative : Bool) :
    StrictMono (signed negative) ∨ StrictAnti (signed negative) := by
  cases negative
  · exact .inl fun q r h => h
  · exact .inr fun q r h => neg_lt_neg h

/-- Of three numbers, one end is farther from any number than the middle one is if the other end
    is as far. -/
theorem abs_sub_lt_of_between {a b c q : ℚ} (hab : a < b) (hbc : b < c)
    (heq : |a - q| = |c - q|) : |b - q| < |a - q| := by
  rcases abs_eq_abs.1 heq with h | h
  · linarith
  · have hle : a - q ≤ 0 := by linarith
    rw [abs_of_nonpos hle, abs_lt]
    exact ⟨by linarith, by linarith⟩

/-- There is one nearest datum of either sign. -/
theorem IsNearest.unique {x y : Binary f} {q : ℚ} (hx : x.IsNearest q) (hy : y.IsNearest q)
    (hsign : x.negative = y.negative) : x = y := by
  have heq := le_antisymm (hx.nearest y hy.finite) (hy.nearest x hx.finite)
  -- Of two different codes one is smaller, and nothing depends on which one is called `x`.
  wlog hlt : x.code < y.code generalizing x y
  · rcases Nat.lt_or_eq_of_le (Nat.le_of_not_lt hlt) with hgt | hcode
    · exact (this hy hx hsign.symm heq.symm hgt).symm
    · exact ext hsign hcode.symm
  have hmono := f.magnitude_strictMono
  have hy' : y.toRat = signed x.negative (f.magnitude y.code) := by rw [toRat, hsign]
  have hne : y.toRat ≠ x.toRat := by
    rw [hy', toRat]
    rcases signed_strictMono_or x.negative with hs | hs
    · exact (hs (hmono hlt)).ne'
    · exact (hs (hmono hlt)).ne
  -- Both codes are even, and so there is a nearer datum between the two.
  have hxeven := hx.even y hy.finite hne heq
  have hyeven := hy.even x hx.finite hne.symm heq.symm
  have hcode : x.code + 1 < y.code := by omega
  have hfinite : x.code + 1 < f.infinityCode := hcode.trans hy.finite
  let z : Binary f := ⟨x.negative, x.code + 1, hfinite.trans (infinity f true).code_lt⟩
  -- One code further, the datum is between the two, which are equally far away.
  have hz : |z.toRat - q| < |x.toRat - q| := by
    rw [hy', toRat] at heq
    rw [toRat, toRat]
    rcases signed_strictMono_or x.negative with hs | hs
    · exact abs_sub_lt_of_between (hs (hmono (Nat.lt_succ_self _))) (hs (hmono hcode)) heq
    · rw [heq]
      exact abs_sub_lt_of_between (hs (hmono hcode)) (hs (hmono (Nat.lt_succ_self _))) heq.symm
  exact absurd (hx.nearest z hfinite) (not_le.2 hz)

end Binary

end ValueText
