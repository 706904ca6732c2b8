import ValueText.Proofs.LongestFloat
import ValueText.Proofs.NearestCode

/-!
# The range of floating-point numbers

A number that is written in digits stands for a rational number, however many digits it has and
however large its exponent is.  The reader judges whether it is out of range after it was
rounded: it is if it became infinite, or if it became zero although it has a digit other than
zero.  Here this is put in terms of the rational number.

## Key results

- `FloatSyntax.leavesRange_iff`, `FloatSyntax.readFloat_eq_ok`: the judgement in terms of the code
  that the number rounds to
- `FloatSyntax.isOutOfRange64_iff`: the range of 64-bit data in terms of that code
- `readFloat_range`: which texts are refused by the reader of 64-bit data, and what the others are
  read as
-/

namespace ValueText

/-! ## What digits stand for -/

namespace Numeral

/-- Digits in front count by as many places more as there are digits behind them. -/
theorem value_append (ds es : Bytes) :
    value (ds ++ es) = value ds * 10 ^ es.length + value es := by
  induction es using List.reverseRecOn with
  | nil => simp [value_nil]
  | append_singleton es e ih =>
    rw [← List.append_assoc, value_append_singleton, ih, value_append_singleton,
      List.length_append, List.length_singleton, pow_succ]
    ring

/-- A run of digits is less than the power of ten with as many zeros. -/
theorem value_lt {ds : Bytes} (h : ∀ d ∈ ds, Char8.isDigit d = true) :
    value ds < 10 ^ ds.length := by
  -- From the last digit on, because the value is one of tens and a digit.
  induction ds using List.reverseRecOn with
  | nil => exact Nat.one_pos
  | append_singleton ds d ih =>
    have ih := ih fun e he => h e (List.mem_append_left _ he)
    have hdigit := FloatSyntax.isDigit_iff.1 (h d (List.mem_append_right _ List.mem_cons_self))
    rw [value_append_singleton, List.length_append, List.length_singleton, pow_succ,
      Char8.digitValue]
    omega

/-- Digits stand for zero exactly if each of them is the digit zero, which has the code 48. -/
theorem value_eq_zero_iff {ds : Bytes} (h : ∀ d ∈ ds, Char8.isDigit d = true) :
    value ds = 0 ↔ ds.any (· != 48) = false := by
  -- From the last digit on; a value is zero if its tens and its last digit are.
  induction ds using List.reverseRecOn with
  | nil => simp [value_nil]
  | append_singleton ds d ih =>
    have ih := ih fun e he => h e (List.mem_append_left _ he)
    have hdigit := FloatSyntax.isDigit_iff.1 (h d (List.mem_append_right _ List.mem_cons_self))
    have hd : Char8.digitValue d = 0 ↔ (d != 48) = false := by
      simp only [Char8.digitValue, bne_eq_false_iff_eq, ← UInt8.toNat_inj, UInt8.reduceToNat]
      omega
    rw [value_append_singleton, List.any_append, List.any_cons, List.any_nil, Bool.or_false,
      Bool.or_eq_false_iff, ← ih, ← hd]
    omega

end Numeral

namespace FloatSyntax

/-- The rational number that digits before and behind a point stand for, times a power of ten. -/
def magnitude (whole fraction : Bytes) (power : Int) : ℚ :=
  (Numeral.value whole + Numeral.value fraction / 10 ^ fraction.length) * 10 ^ power

/-- Moving the point behind the last digit is made up for by the exponent. -/
theorem magnitude_eq (whole fraction : Bytes) (power : Int) :
    magnitude whole fraction power =
      Numeral.value (whole ++ fraction) * 10 ^ (power - fraction.length) := by
  have hten : (10 : ℚ) ≠ 0 := by norm_num
  rw [magnitude, Numeral.value_append, zpow_sub₀ hten, zpow_natCast]
  push_cast
  field_simp

/-! ## The judgement on a number -/

/-- The digits of a number that is not a word are a run of digits. -/
theorem Number.digits {number digits : Bytes} {negative : Bool} {exponent : Int}
    (h : Number number negative (.decimal digits exponent)) : Digits digits := by
  cases h with
  | word _ hword => exact nomatch hword
  | decimal _ hsignificand _ => exact hsignificand.digits

section

variable {number text digits : Bytes} {negative : Bool} {exponent : Int} {f : FloatType}
  {code : Nat} (hlongest : IsLongest number (Scan.skipBlanks text))
  (hnumber : Number number negative (.decimal digits exponent))
  (hcode : f.RoundsTo code (Numeral.value digits * (10 : ℚ) ^ exponent))

include hnumber hcode in
/-- The datum that a decimal makes has the code that the decimal rounds to, with infinity as the
    last. -/
theorem ofFloatText_code :
    (Binary.ofFloatText f negative (.decimal digits exponent)).code = min f.infinityCode code :=
  Binary.ofDecimal_code (Numeral.value_lt hnumber.digits.all) hcode

include hnumber hcode in
/-- A number is out of range if it rounds to infinity or beyond, or to zero without being zero. -/
theorem leavesRange_iff :
    Scan.FloatText.leavesRange (Binary.ofFloatText f negative (.decimal digits exponent))
        (.decimal digits exponent) = true ↔
      f.infinityCode ≤ code ∨ code = 0 ∧ Numeral.value digits ≠ 0 := by
  have hinfinity := f.infinityCode_pos
  have hvalue := Numeral.value_eq_zero_iff hnumber.digits.all
  -- Beyond infinity all codes are drawn in to that of infinity; zero stays zero.
  have hinfinite : (Binary.ofFloatText f negative (.decimal digits exponent)).isInfinite = true ↔
      f.infinityCode ≤ code := by
    rw [Binary.isInfinite, ofFloatText_code hnumber hcode, beq_iff_eq]
    omega
  have hzero : (Binary.ofFloatText f negative (.decimal digits exponent)).isZero = true ↔
      code = 0 := by
    rw [Binary.isZero, ofFloatText_code hnumber hcode, beq_iff_eq]
    omega
  rw [Scan.FloatText.leavesRange, Bool.or_eq_true, Bool.and_eq_true, hinfinite, hzero, ne_eq,
    hvalue, Bool.not_eq_false]

include hlongest hnumber hcode

/-- Which numbers are refused does not depend on what stands around them. -/
theorem readFloat_eq_outOfRange_iff :
    floatOutcome (readFloat f text) = .error .outOfRange ↔
      f.infinityCode ≤ code ∨ code = 0 ∧ Numeral.value digits ≠ 0 := by
  rw [← leavesRange_iff hnumber hcode, hlongest.readFloat_eq hnumber]
  split
  next hleaves => exact ⟨fun _ => hleaves, fun _ => rfl⟩
  next hleaves => exact ⟨(nomatch ·), fun h => absurd h hleaves⟩

/-- A number that is not out of range is read as the datum with its sign and its code. -/
theorem readFloat_eq_ok (hfinite : code < f.infinityCode)
    (hzero : code = 0 → Numeral.value digits = 0) {x : Binary f} (hsign : x.negative = negative)
    (hx : x.code = code) : readFloat f text = .ok x := by
  -- Neither end of the range is left, so the datum that was rounded to is the result.
  have hstays : ¬(f.infinityCode ≤ code ∨ code = 0 ∧ Numeral.value digits ≠ 0) := by
    rintro (hle | ⟨hcode, hne⟩)
    · omega
    · exact hne (hzero hcode)
  rw [← leavesRange_iff hnumber hcode] at hstays
  rw [hlongest.readFloat_eq hnumber, if_neg hstays, Except.ok.injEq]
  refine Binary.ext hsign.symm ?_
  rw [ofFloatText_code hnumber hcode, Nat.min_eq_right hfinite.le, hx]

end

/-! ## The range of 64-bit data -/

/-- The magnitudes that are out of the range of 64-bit data: those that are nearer to the power of
    two behind the greatest finite datum than to that datum, or half-way between, and the positive
    ones up to half of the least positive datum. -/
def IsOutOfRange64 (q : ℚ) : Prop := 2 ^ 1024 - 2 ^ 970 ≤ q ∨ 0 < q ∧ q ≤ 2 ^ (-1075 : Int)

/-- Where 64-bit data overflow: half of the spacing behind the greatest finite one. -/
theorem lowerEnd_infinityCode_f64 :
    (FloatType.f64.lowerEnd FloatType.f64.infinityCode : ℚ) =
      (2 ^ 1024 - 2 ^ 970) * 2 ^ (FloatType.f64.unitBits + 1) := by
  have hend : FloatType.f64.lowerEnd FloatType.f64.infinityCode = (2 ^ 54 - 1) * 2 ^ 2045 := by
    decide +kernel
  -- The exponents are variables here, so that no tactic takes these powers to be numerals.
  have hcast {n k : Nat} (h : n = (2 ^ 54 - 1) * 2 ^ k) : (n : ℚ) = (2 ^ 54 - 1) * 2 ^ k := by
    rw [h]
    push_cast
    norm_num
  have hpower (a b : Nat) : ((2 : ℚ) ^ (54 + a) - 2 ^ a) * 2 ^ b = (2 ^ 54 - 1) * 2 ^ (a + b) := by
    rw [pow_add, pow_add]
    ring
  exact (hcast hend).trans (hpower 970 1075).symm

/-- A magnitude is out of the range of 64-bit data if it rounds to infinity or beyond, or to zero
    without being zero. -/
theorem isOutOfRange64_iff {q : ℚ} {code : Nat} (hq : 0 ≤ q) (h : FloatType.f64.RoundsTo code q) :
    IsOutOfRange64 q ↔ FloatType.f64.infinityCode ≤ code ∨ code = 0 ∧ q ≠ 0 := by
  have hpow : (0 : ℚ) < 2 ^ (FloatType.f64.unitBits + 1) := by positivity
  have hpower (n : Nat) : (2 : ℚ) ^ (-(n : Int)) = 1 / 2 ^ n := by
    rw [zpow_neg, zpow_natCast, one_div]
  have hbits : (2 : ℚ) ^ (-1075 : Int) = 1 / 2 ^ (FloatType.f64.unitBits + 1) := hpower 1075
  -- Both ends are midpoints of neighbouring codes, as amounts of half units.
  rw [h.infinityCode_le_iff, h.eq_zero_iff, lowerEnd_infinityCode_f64, FloatType.halfUnits,
    mul_le_mul_iff_left₀ hpow, IsOutOfRange64, hbits, le_div_iff₀ hpow, and_comm (a := 0 < q),
    hq.lt_iff_ne', ne_comm]

end FloatSyntax

open FloatSyntax in
/-- Where the longest number behind the blanks is written in digits, the 64-bit reader refuses it as
    out of range exactly if the rational number that it stands for is, and otherwise yields the
    datum that is nearest to it, with its sign.  Where it is a word, the reader yields infinity
    with its sign or a datum that is not a number. -/
theorem readFloat_range {text number : Bytes}
    (hlongest : IsLongest number (text.dropWhile Char8.isBlank)) :
    Stepwise.readFloat64 text = .ok (readFloat .f64 text) ∧
    (∀ sign significand whole fraction exponent negative power, Sign sign negative →
      Significand significand whole fraction → Exponent exponent power →
      number = sign ++ (significand ++ exponent) →
      (floatOutcome (readFloat .f64 text) = .error .outOfRange ↔
        IsOutOfRange64 (magnitude whole fraction power)) ∧
      (¬IsOutOfRange64 (magnitude whole fraction power) →
        ∃ x, readFloat .f64 text = .ok x ∧ x.negative = negative ∧
          x.IsNearest (Binary.signed negative (magnitude whole fraction power)))) ∧
    ∀ sign word negative value, Sign sign negative → Word word value → number = sign ++ word →
      ∃ x, readFloat .f64 text = .ok x ∧
        (value = .infinity ∧ x = .infinity .f64 negative ∨ value = .nan ∧ x.isNaN = true) := by
  refine ⟨Stepwise.readFloat64_eq text, ?_, ?_⟩
  · -- The judgement by the code and the one by the rational number are compared at the code that
    -- the number rounds to.
    rintro sign significand whole fraction exponent negative power hsign hsignificand hexponent rfl
    have hnumber := Number.decimal hsign hsignificand hexponent
    rw [magnitude_eq]
    have hq : (0 : ℚ) ≤ Numeral.value (whole ++ fraction) * 10 ^ (power - fraction.length) := by
      positivity
    have hzero : (Numeral.value (whole ++ fraction) : ℚ) * 10 ^ (power - fraction.length) ≠ 0 ↔
        Numeral.value (whole ++ fraction) ≠ 0 := by
      rw [mul_ne_zero_iff_right (by positivity), Nat.cast_ne_zero]
    obtain ⟨code, hcode⟩ := FloatType.f64.exists_roundsTo hq
    rw [isOutOfRange64_iff hq hcode, hzero]
    refine ⟨readFloat_eq_outOfRange_iff hlongest hnumber hcode, fun hin => ?_⟩
    obtain ⟨hfinite, hcodezero⟩ := not_or.1 hin
    have hfinite := Nat.lt_of_not_le hfinite
    let x : Binary .f64 := ⟨negative, code, hfinite.trans (Binary.infinity .f64 negative).code_lt⟩
    exact ⟨x, readFloat_eq_ok hlongest hnumber hcode hfinite (by tauto) rfl rfl, rfl,
      Binary.isNearest_of_roundsTo (x := x) hq hfinite hcode⟩
  · -- What a word stands for is neither rounded nor judged.
    rintro sign word negative value hsign hword rfl
    have hnumber := Number.word hsign hword
    have hread := hlongest.readFloat_eq hnumber .f64
    cases hword with
    | infinity => exact ⟨_, hread, .inl ⟨rfl, rfl⟩⟩
    | inf => exact ⟨_, hread, .inl ⟨rfl, rfl⟩⟩
    | nan => exact ⟨_, hread, .inr ⟨rfl, decide_eq_true (Nat.lt_succ_self _)⟩⟩

open FloatSyntax in
/-- Zero is not out of range, whatever its exponent is, and keeps its sign. -/
theorem readFloat_range_zero :
    IsLongest (Bytes.ofString "-0.000e999")
        ((Bytes.ofString " -0.000e999e").dropWhile Char8.isBlank) ∧
      ∃ x, readFloat .f64 (Bytes.ofString " -0.000e999e") = .ok x ∧ x.negative = true ∧
        x.IsNearest 0 := by
  have hscan : Scan.float? (Bytes.ofString "-0.000e999" ++ Bytes.ofString "e") =
      some (true, .decimal (Bytes.ofString "0000") 996, Bytes.ofString "e") := by decide +kernel
  have hbehind : (Bytes.ofString " -0.000e999e").dropWhile Char8.isBlank =
      Bytes.ofString "-0.000e999" ++ Bytes.ofString "e" := by decide +kernel
  have hlongest := (isLongest_of_float? hscan).1
  rw [← hbehind] at hlongest
  -- The significand is zero, so the exponent does not count.
  have hzero : magnitude (Bytes.ofString "0") (Bytes.ofString "000") 999 = 0 := by
    have hwhole : Numeral.value (Bytes.ofString "0") = 0 := by decide +kernel
    have hfraction : Numeral.value (Bytes.ofString "000") = 0 := by decide +kernel
    simp [magnitude, hwhole, hfraction]
  -- Zero is between the two ends of the range.
  have hin : ¬IsOutOfRange64 0 := by
    have hlt : (2 : ℚ) ^ 970 < 2 ^ 1024 := pow_lt_pow_right₀ one_lt_two (by decide)
    rintro (hle | ⟨hpos, -⟩)
    · exact hlt.not_ge (sub_nonpos.1 hle)
    · exact lt_irrefl 0 hpos
  -- The parts of the text, as the grammar names them.
  have hwhole : Digits (Bytes.ofString "0") := ⟨by decide +kernel, by decide +kernel⟩
  have hpower : Digits (Bytes.ofString "999") := ⟨by decide +kernel, by decide +kernel⟩
  have hexponent : Exponent (Bytes.ofString "e999") 999 := .written (.inl rfl) .absent hpower
  have hsignificand : Significand (Bytes.ofString "0.000") (Bytes.ofString "0")
      (Bytes.ofString "000") := .pointed hwhole (by decide +kernel)
  have hread := ((readFloat_range hlongest).2.1 [45] _ _ _ _ true 999 .minus hsignificand hexponent
    (by decide +kernel)).2
  rw [hzero] at hread
  exact ⟨hlongest, by simpa [Binary.signed] using hread hin⟩

/-- The numbers next to the two ends of the range, on either side of each. -/
example : (["1.7976931348623158e308", "1.7976931348623159e308", "2.4703282292062328e-324",
    "2.4703282292062327e-324"].map fun s =>
      (readFloat .f64 (Bytes.ofString s)).toOption.map Binary.code) =
    [some (FloatType.f64.infinityCode - 1), none, some 1, none] := by
  decide +kernel

end ValueText
