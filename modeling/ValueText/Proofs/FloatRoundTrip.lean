import ValueText.Proofs.FloatRange
import ValueText.Proofs.RenderedText

/-!
# Reading undoes rendering

The text of a floating-point datum is a number by the grammar of the reader, and nothing else.
What it stands for rounds to the code of the datum: on each of its grids the search for the
shortest decimal accepts only decimals in the interval of the code, and on the last grid, where
it no longer looks, the magnitude of the code itself is a multiple of the grid.  So the datum is
read back, and neither the greatest nor the least one is refused.

## Key results

- `FloatType.shortest_roundsTo`: the shortest decimal rounds to the code
- `FloatSyntax.number_text`: the text of a datum is a number
- `readFloat_text`: what is read from the text of a datum is the datum
-/

namespace ValueText

namespace FloatType

variable {f : FloatType} {code : Nat}

/-! ## The shortest decimal -/

/-- The spacing of the grid of multiples of `10 ^ exponent`, over ten to the power that makes it
    whole, in half units. -/
def gridStep (f : FloatType) (exponent : Int) : Nat := 2 ^ (f.unitBits + 1) * 10 ^ exponent.toNat

/-- The multiple of the spacing that is next below the magnitude of a code. -/
def gridBelow (f : FloatType) (code : Nat) (exponent : Int) : Nat :=
  2 * f.units code * 10 ^ (-exponent).toNat / f.gridStep exponent

theorem gridStep_pos (f : FloatType) (exponent : Int) : 0 < f.gridStep exponent := by
  rw [gridStep]
  positivity

/-- A multiple of the spacing rounds to a code if it is in the interval of the code. -/
theorem roundsTo_grid {digits : Nat} {exponent : Int}
    (hlower : f.lowerEnd code * 10 ^ (-exponent).toNat ≤ digits * f.gridStep exponent)
    (hupper : digits * f.gridStep exponent ≤ f.upperEnd code * 10 ^ (-exponent).toNat)
    (heven : digits * f.gridStep exponent = f.lowerEnd code * 10 ^ (-exponent).toNat ∨
      digits * f.gridStep exponent = f.upperEnd code * 10 ^ (-exponent).toNat → code % 2 = 0) :
    f.RoundsTo code (digits * (10 : ℚ) ^ exponent) := by
  -- A step of the grid is counted in half units, times the denominator of the decimal.
  have hstep : digits * f.gridStep exponent =
      2 * (digits * 10 ^ exponent.toNat * 2 ^ f.unitBits) := by
    rw [gridStep]
    ring
  rw [hstep] at hlower hupper heven
  rw [← Binary.ratio_eq_zpow]
  exact roundsTo_ratio (by positivity) hlower hupper heven

/-- What is found on a grid is one of the two neighbours of the magnitude, and was compared with the
    end of the interval on its side. -/
theorem onGrid?_cases {digits : Nat} {exponent : Int}
    (h : f.onGrid? code exponent = some digits) :
    digits = f.gridBelow code exponent ∧
        (f.lowerEnd code * 10 ^ (-exponent).toNat < digits * f.gridStep exponent ∨
          code % 2 = 0 ∧ f.lowerEnd code * 10 ^ (-exponent).toNat = digits * f.gridStep exponent) ∨
      digits = f.gridBelow code exponent + 1 ∧
        (digits * f.gridStep exponent < f.upperEnd code * 10 ^ (-exponent).toNat ∨
          code % 2 = 0 ∧ digits * f.gridStep exponent =
            f.upperEnd code * 10 ^ (-exponent).toNat) := by
  simp only [onGrid?, ← lowerEnd.eq_1, ← upperEnd.eq_1, Nat.pow_eq, ← gridStep.eq_1,
    ← gridBelow.eq_1, Bool.and_eq_true, Bool.or_eq_true, decide_eq_true_eq, beq_iff_eq] at h
  -- Both neighbours fit, or only the one below does, or only the one above, or neither.
  split at h
  next hfits =>
    split at h
    · obtain rfl := Option.some.inj h
      exact .inl ⟨rfl, hfits.1⟩
    · obtain rfl := Option.some.inj h
      exact .inr ⟨rfl, hfits.2⟩
  next =>
    split at h
    next hfits =>
      obtain rfl := Option.some.inj h
      exact .inl ⟨rfl, hfits⟩
    next =>
      split at h
      next hfits =>
        obtain rfl := Option.some.inj h
        exact .inr ⟨rfl, hfits⟩
      next => simp at h

/-- What is found on a grid rounds to the code. -/
theorem onGrid?_roundsTo {digits : Nat} {exponent : Int}
    (h : f.onGrid? code exponent = some digits) :
    f.RoundsTo code (digits * (10 : ℚ) ^ exponent) := by
  have hup : 0 < 10 ^ (-exponent).toNat := by positivity
  have hlow := Nat.mul_le_mul_right (10 ^ (-exponent).toNat) (f.lowerEnd_le_double code)
  have hhigh := Nat.mul_lt_mul_of_pos_right (f.double_lt_upperEnd code) hup
  -- The magnitude is in the interval, so a neighbour can be beyond the end on its side only.
  rcases onGrid?_cases h with ⟨rfl, hfits⟩ | ⟨rfl, hfits⟩
  · have hbelow : f.gridBelow code exponent * f.gridStep exponent ≤
        2 * f.units code * 10 ^ (-exponent).toNat := Nat.div_mul_le_self _ _
    exact roundsTo_grid (by omega) (by omega) (by omega)
  · have habove : 2 * f.units code * 10 ^ (-exponent).toNat <
        (f.gridBelow code exponent + 1) * f.gridStep exponent :=
      (Nat.div_lt_iff_lt_mul (f.gridStep_pos exponent)).1 (Nat.lt_succ_self _)
    exact roundsTo_grid (by omega) (by omega) (by omega)

/-- On a grid that divides half units, the magnitude of a code is a multiple of the spacing. -/
theorem gridBelow_mul_gridStep (code : Nat) {exponent : Int}
    (h : exponent ≤ -((f.unitBits + 2 : Nat) : Int)) :
    f.gridBelow code exponent * f.gridStep exponent =
      2 * f.units code * 10 ^ (-exponent).toNat := by
  have hzero : exponent.toNat = 0 := by omega
  have hbits : f.unitBits + 1 ≤ (-exponent).toNat := by omega
  refine Nat.div_mul_cancel (Dvd.dvd.mul_left ?_ _)
  rw [gridStep, hzero, pow_zero, Nat.mul_one]
  -- A grid so fine has every binary fraction of the format among its points.
  calc 2 ^ (f.unitBits + 1)
    _ ∣ 10 ^ (f.unitBits + 1) := pow_dvd_pow_of_dvd (by decide) _
    _ ∣ 10 ^ (-exponent).toNat := pow_dvd_pow 10 hbits

/-- What the search ends with when it no longer looks is the magnitude of the code. -/
theorem roundsTo_gridBelow {exponent : Int} (h : exponent ≤ -((f.unitBits + 2 : Nat) : Int)) :
    f.RoundsTo code (f.gridBelow code exponent * (10 : ℚ) ^ exponent) := by
  have hup : 0 < 10 ^ (-exponent).toNat := by positivity
  have hlow := Nat.mul_le_mul_right (10 ^ (-exponent).toNat) (f.lowerEnd_le_double code)
  have hhigh := Nat.mul_lt_mul_of_pos_right (f.double_lt_upperEnd code) hup
  have hexact := gridBelow_mul_gridStep code h
  refine roundsTo_grid (by omega) (by omega) ?_
  rintro (htie | htie)
  · -- Only zero is an end of its own interval.
    have hunits := Nat.eq_of_mul_eq_mul_right hup (hexact.symm.trans htie)
    rw [lowerEnd] at hunits
    have hcode := f.units_strictMono.injective (by omega : f.units code = f.units (code - 1))
    omega
  · omega

/-- The search yields a decimal that rounds to the code, if it has enough grids left. -/
theorem searchGrids_roundsTo {fuel : Nat} {exponent : Int}
    (h : exponent ≤ fuel - ((f.unitBits + 2 : Nat) : Int)) :
    f.RoundsTo code ((f.searchGrids code fuel exponent).digits *
      (10 : ℚ) ^ (f.searchGrids code fuel exponent).exponent) := by
  -- By the number of grids that are left; at the end of them stands one that has the number itself.
  induction fuel generalizing exponent with
  | zero => exact roundsTo_gridBelow (by omega)
  | succ fuel ih =>
    rw [searchGrids]
    split
    next digits hgrid => exact onGrid?_roundsTo hgrid
    next hgrid => exact ih (by omega)

/-- The shortest decimal of a code rounds to it. -/
theorem shortest_roundsTo (f : FloatType) (code : Nat) :
    f.RoundsTo code ((f.shortest code).digits * (10 : ℚ) ^ (f.shortest code).exponent) := by
  refine searchGrids_roundsTo ?_
  omega

end FloatType

namespace FloatSyntax

/-! ## The text of a datum -/

/-- The digits of a number are a run of digits, which is not empty. -/
theorem digits_digits (n : Nat) : Digits (Numeral.digits n) :=
  ⟨Numeral.digits_ne_nil n, fun _ => Numeral.isDigit_of_mem_digits⟩

theorem digits_zero : Digits [48] := ⟨List.cons_ne_nil _ _, by decide +kernel⟩

theorem isDigit_of_mem_zeros {n : Nat} {d : Char8} (h : d ∈ List.replicate n 48) :
    Char8.isDigit d = true := by
  rw [List.eq_of_mem_replicate h]
  rfl

theorem value_zeros (n : Nat) : Numeral.value (List.replicate n 48) = 0 := by
  rw [Numeral.value_eq_zero_iff fun _ => isDigit_of_mem_zeros]
  simp

/-- A decimal that is written out is a number without an exponent, and stands for the decimal. -/
theorem significand_positionalText (n : Nat) (exponent : Int) :
    ∃ whole fraction,
      Significand (FloatLayout.plain.positionalText (Numeral.digits n) exponent) whole fraction ∧
      (Numeral.value (whole ++ fraction) : ℚ) * 10 ^ ((0 : Int) - fraction.length) =
        n * 10 ^ exponent := by
  have hdigits := digits_digits n
  rw [FloatLayout.positionalText]
  split
  next hexponent =>
    -- Behind the digits there are zeros.
    lift exponent to ℕ using hexponent
    refine ⟨Numeral.digits n ++ List.replicate exponent 48, [], ?_, ?_⟩
    · have hwhole : Digits (Numeral.digits n ++ List.replicate exponent 48) :=
        ⟨by simp [hdigits.ne_nil], by
          intro d hd
          rcases List.mem_append.1 hd with hd | hd
          · exact hdigits.all d hd
          · exact isDigit_of_mem_zeros hd⟩
      simpa [FloatLayout.plain] using Significand.whole hwhole
    · rw [List.append_nil, Numeral.value_append, value_zeros, Numeral.value_digits,
        List.length_replicate]
      simp
  next hexponent =>
    -- The exponent says how many digits stand behind the point.
    obtain ⟨places, rfl⟩ : ∃ places : Nat, exponent = -places := ⟨exponent.natAbs, by omega⟩
    simp only [neg_neg, Int.toNat_natCast]
    split
    next hplaces =>
      -- The point is between two of the digits.
      refine ⟨_, _, .pointed ⟨?_, fun d hd => hdigits.all d (List.mem_of_mem_take hd)⟩
        fun d hd => hdigits.all d (List.mem_of_mem_drop hd), ?_⟩
      · rw [ne_eq, List.take_eq_nil_iff]
        rintro (hle | hnil)
        · omega
        · exact hdigits.ne_nil hnil
      · rw [List.take_append_drop, Numeral.value_digits, List.length_drop,
          Nat.sub_sub_self hplaces.le, zero_sub]
    next hplaces =>
      -- Between the point and the digits there are zeros.
      refine ⟨_, _, .pointed digits_zero fun d hd => ?_, ?_⟩
      · rcases List.mem_append.1 hd with hd | hd
        · exact isDigit_of_mem_zeros hd
        · exact hdigits.all d hd
      · have hlength : (List.replicate (places - (Numeral.digits n).length) (48 : Char8) ++
            Numeral.digits n).length = places := by
          rw [List.length_append, List.length_replicate]
          omega
        have hvalue : Numeral.value [48] = 0 := rfl
        rw [Numeral.value_append, Numeral.value_append, value_zeros, hvalue,
          Numeral.value_digits, hlength, zero_sub, Nat.zero_mul, Nat.zero_mul, Nat.zero_add,
          Nat.zero_add]

/-- The text of a finite magnitude is a significand, and stands for a decimal that rounds to the
    code, for zero itself if the code is zero. -/
theorem significand_text {f : FloatType} (x : Binary f) :
    ∃ whole fraction,
      Significand (if x.isZero then 48 :: FloatLayout.plain.wholeEnd
        else FloatLayout.plain.decimalText (f.shortest x.code)) whole fraction ∧
      f.RoundsTo x.code
        (Numeral.value (whole ++ fraction) * (10 : ℚ) ^ ((0 : Int) - fraction.length)) ∧
      (x.code = 0 → Numeral.value (whole ++ fraction) = 0) := by
  split
  -- Zero is laid out without the search for the shortest decimal.
  next hzero =>
    have hcode : x.code = 0 := beq_iff_eq.1 hzero
    have hround : f.RoundsTo 0 0 :=
      FloatType.roundsTo_lowerEnd rfl (by simp [FloatType.halfUnits, FloatType.lowerEnd_zero])
    have hvalue : Numeral.value [48] = 0 := rfl
    refine ⟨[48], [], .whole digits_zero, ?_, fun _ => hvalue⟩
    rw [hcode, List.append_nil, hvalue, Nat.cast_zero, zero_mul]
    exact hround
  next hzero =>
    obtain ⟨whole, fraction, hsignificand, hvalue⟩ := significand_positionalText
      (f.shortest x.code).digits (f.shortest x.code).exponent
    refine ⟨whole, fraction, hsignificand, ?_, fun hcode => absurd (beq_iff_eq.2 hcode) hzero⟩
    rw [hvalue]
    exact f.shortest_roundsTo x.code

/-- A sign that is written or not is a sign of the grammar. -/
theorem exists_sign (negative : Bool) (magnitude : Bytes) :
    ∃ sign, Sign sign negative ∧
      (if negative then 45 :: magnitude else magnitude) = sign ++ magnitude := by
  cases negative with
  | false => exact ⟨[], .absent, rfl⟩
  | true => exact ⟨[45], .minus, rfl⟩

/-- What the text of a datum stands for: infinity, something that is not a number, or a decimal that
    rounds to the code of the datum. -/
inductive Renders {f : FloatType} (x : Binary f) : Scan.FloatText → Prop
  | infinity (h : x.isInfinite = true) : Renders x .infinity
  | nan (h : x.isNaN = true) : Renders x .nan
  | decimal {digits : Bytes} {exponent : Int} (hfinite : x.code < f.infinityCode)
      (hcode : f.RoundsTo x.code (Numeral.value digits * (10 : ℚ) ^ exponent))
      (hzero : x.code = 0 → Numeral.value digits = 0) : Renders x (.decimal digits exponent)

/-- The text of a datum is a number.  Its sign is that of the datum, except that what is not a
    number has none. -/
theorem number_text {f : FloatType} (x : Binary f) :
    ∃ value, Number (x.text .plain) (x.negative && !x.isNaN) value ∧ Renders x value := by
  rw [Binary.text]
  split
  -- Whatever is not a number is written without a sign.
  next hnan =>
    rw [hnan, Bool.not_true, Bool.and_false]
    exact ⟨.nan, .word .absent (.nan (by decide +kernel)), .nan hnan⟩
  next hnan =>
    rw [Bool.not_eq_true] at hnan
    rw [hnan, Bool.not_false, Bool.and_true]
    have hle : x.code ≤ f.infinityCode := Nat.le_of_not_lt (of_decide_eq_false hnan)
    -- What stands behind the sign is laid out without regard to it.
    obtain ⟨sign, hsign, htext⟩ := exists_sign x.negative
      (if x.isInfinite then Bytes.ofString "inf"
        else if x.isZero then 48 :: FloatLayout.plain.wholeEnd
        else FloatLayout.plain.decimalText (f.shortest x.code))
    simp only [htext]
    split
    next hinfinite => exact ⟨.infinity, .word hsign (.inf (by decide +kernel)), .infinity hinfinite⟩
    next hinfinite =>
      have hne : x.code ≠ f.infinityCode := fun hcode => hinfinite (beq_iff_eq.2 hcode)
      obtain ⟨whole, fraction, hsignificand, hcode, hzero⟩ := significand_text x
      have hnumber := Number.decimal hsign hsignificand .absent
      rw [List.append_nil] at hnumber
      exact ⟨_, hnumber, .decimal (lt_of_le_of_ne hle hne) hcode hzero⟩

/-- What is read from the text of a datum is the datum, or again one that is not a number. -/
theorem readFloat_text_eq {f : FloatType} (x : Binary f) :
    if x.isNaN then ∃ y, readFloat f (x.text .plain) = .ok y ∧ y.isNaN = true
    else readFloat f (x.text .plain) = .ok x := by
  obtain ⟨value, hnumber, hvalue⟩ := number_text x
  -- The three kinds of text: a word for infinity, a word for what is not a number, a decimal.
  cases hvalue with
  | infinity hinfinite =>
    have hcode : x.code = f.infinityCode := beq_iff_eq.1 hinfinite
    have hnan : x.isNaN = false := by simp [Binary.isNaN, hcode]
    rw [hnan, Bool.not_false, Bool.and_true] at hnumber
    rw [if_neg (by simp [hnan]), hnumber.isLongest.readFloat_eq hnumber]
    exact congrArg Except.ok (Binary.ext rfl hcode.symm)
  | nan hnan =>
    rw [if_pos hnan, hnumber.isLongest.readFloat_eq hnumber]
    exact ⟨_, rfl, decide_eq_true (Nat.lt_succ_self _)⟩
  -- The decimal that was laid out rounds back to the code, and to zero only from zero.
  | decimal hfinite hcode hzero =>
    have hnan : x.isNaN = false := decide_eq_false (Nat.not_lt.2 hfinite.le)
    rw [hnan, Bool.not_false, Bool.and_true] at hnumber
    rw [if_neg (by simp [hnan])]
    exact readFloat_eq_ok hnumber.isLongest hnumber hcode hfinite hzero rfl rfl

end FloatSyntax

/-- Reading undoes rendering: the reader takes the whole text of a datum, and what it yields is the
    datum with all its bits, or again one that is not a number. -/
theorem readFloat_text (x : Binary .f64) :
    Stepwise.scanFloat (Text.ofValue x).toList = .ok (some (Text.ofValue x).toList.length) ∧
    Stepwise.readFloat64 (Text.ofValue x).toList =
      .ok (readFloat .f64 (Text.ofValue x).toList) ∧
    if x.isNaN then ∃ y, readFloat .f64 (Text.ofValue x).toList = .ok y ∧ y.isNaN = true
    else readFloat .f64 (Text.ofValue x).toList = .ok x := by
  have htext : (Text.ofValue x).toList = x.text .plain := Text.toList_ofValue x
  rw [htext]
  obtain ⟨value, hnumber, -⟩ := FloatSyntax.number_text x
  -- The text is a number as a whole, so its longest number is all of it.
  have hlongest := hnumber.isLongest
  rw [hnumber.skipBlanks] at hlongest
  obtain ⟨found, hscan, -, hfound⟩ := FloatSyntax.scanFloat_longest (x.text .plain)
  rw [hscan, (hfound _).2 ⟨le_rfl, by rwa [List.take_length]⟩]
  exact ⟨rfl, Stepwise.readFloat64_eq _, FloatSyntax.readFloat_text_eq x⟩

end ValueText
