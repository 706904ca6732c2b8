import Mathlib
import ValueText.Proofs.FloatSyntax

/-!
# Every integer has one canonical numeral

A canonical numeral is `0`, or digits of which the first is not zero, with a minus sign before them
if the integer is negative.  `Numeral.ofInt` writes the canonical numeral of an integer, and it is
the only one: digits without a leading zero are the digits of the number that they stand for.

## Key results

- `Numeral.digits_value`: digits without a leading zero are found again from their value
- `Numeral.isCanonical_iff`: an integer has one canonical numeral
- `Numeral.ofInt_injective`: different integers have different numerals
-/

namespace ValueText.Numeral

/-- Digits of which the first is not zero. -/
structure Unpadded (ds : Bytes) : Prop where
  all : ∀ d ∈ ds, Char8.isDigit d = true
  head : ∃ d, ds.head? = some d ∧ d ≠ 48

/-- The numeral of an integer as it is written without anything that could be left out. -/
inductive IsCanonical : Bytes → Int → Prop
  | zero : IsCanonical [48] 0
  | positive {ds : Bytes} (h : Unpadded ds) : IsCanonical ds (value ds)
  | negative {ds : Bytes} (h : Unpadded ds) : IsCanonical (45 :: ds) (-(value ds : Int))

/-! ## Digits and their value -/

/-- A digit stands for a number below the base. -/
theorem digitValue_lt {d : Char8} (h : Char8.isDigit d = true) : Char8.digitValue d < 10 := by
  have hd := FloatSyntax.isDigit_iff.1 h
  rw [Char8.digitValue]
  omega

/-- A digit is the one that its number makes. -/
theorem ofDigit_digitValue {d : Char8} (h : Char8.isDigit d = true) :
    Char8.ofDigit (Char8.digitValue d) = d := by
  have hd := FloatSyntax.isDigit_iff.1 h
  rw [← UInt8.toNat_inj, toNat_ofDigit (digitValue_lt h), Char8.digitValue]
  omega

theorem digits_of_lt {n : Nat} (h : n < 10) : digits n = [Char8.ofDigit n] := by
  rw [digits, if_pos h]

/-- A greater number has the digits of its tenth part, and then its last digit. -/
theorem digits_of_ge {n : Nat} (h : 10 ≤ n) :
    digits n = digits (n / 10) ++ [Char8.ofDigit (n % 10)] := by
  rw [digits, if_neg (Nat.not_lt.2 h)]

/-- Only zero has a digit zero in front. -/
theorem unpadded_digits {n : Nat} (h : n ≠ 0) : Unpadded (digits n) := by
  refine ⟨fun _ => isDigit_of_mem_digits, ?_⟩
  fun_induction digits n with
  -- A single digit is the number itself, which is not zero.
  | case1 n hlt =>
    refine ⟨_, rfl, fun hzero => h ?_⟩
    have hvalue := digitValue_ofDigit hlt
    rw [hzero] at hvalue
    exact hvalue.symm
  -- The first digit is that of the tenth part.
  | case2 n hge ih =>
    obtain ⟨d, hd, hne⟩ := ih (by omega)
    exact ⟨d, by rw [List.head?_append, hd, Option.some_or], hne⟩

/-- What stands before the last digit of an unpadded run is unpadded as well. -/
theorem Unpadded.of_append {ds : Bytes} {d : Char8} (h : Unpadded (ds ++ [d])) (hds : ds ≠ []) :
    Unpadded ds := by
  refine ⟨fun e he => h.all e (List.mem_append_left _ he), ?_⟩
  obtain ⟨e, he, hne⟩ := h.head
  rw [List.head?_append_of_ne_nil _ hds] at he
  exact ⟨e, he, hne⟩

/-- Digits without a leading zero stand for a positive number, whose digits they are. -/
theorem digits_value_and_pos {ds : Bytes} (h : Unpadded ds) :
    digits (value ds) = ds ∧ 0 < value ds := by
  -- A number is built from the left and taken apart from the right, so the last digit goes first.
  induction ds using List.reverseRecOn with
  | nil =>
    obtain ⟨d, hd, -⟩ := h.head
    exact nomatch hd
  | append_singleton ds d ih =>
    have hdigit := h.all d (List.mem_append_right _ List.mem_cons_self)
    have hlt := digitValue_lt hdigit
    rw [value_append_singleton]
    by_cases hds : ds = []
    -- A single digit is also the first one, which is not zero.
    · obtain ⟨e, he, hne⟩ := h.head
      rw [hds, List.nil_append, List.head?_cons, Option.some.injEq] at he
      have hpos : Char8.digitValue d ≠ 0 := by
        intro hzero
        apply hne
        rw [← he, ← ofDigit_digitValue hdigit, hzero]
        rfl
      rw [hds, value_nil, Nat.zero_mul, Nat.zero_add, digits_of_lt hlt, ofDigit_digitValue hdigit]
      exact ⟨rfl, Nat.pos_of_ne_zero hpos⟩
    -- The digits before the last are the tenth part, and they have no padding either.
    · obtain ⟨hvalue, hpos⟩ := ih (h.of_append hds)
      have hquotient : (value ds * 10 + Char8.digitValue d) / 10 = value ds := by omega
      have hremainder : (value ds * 10 + Char8.digitValue d) % 10 = Char8.digitValue d := by omega
      rw [digits_of_ge (by omega), hquotient, hremainder, hvalue, ofDigit_digitValue hdigit]
      exact ⟨rfl, by omega⟩

/-- A run of digits without padding is the only one for its value. -/
theorem digits_value {ds : Bytes} (h : Unpadded ds) : digits (value ds) = ds :=
  (digits_value_and_pos h).1

theorem Unpadded.value_pos {ds : Bytes} (h : Unpadded ds) : 0 < value ds :=
  (digits_value_and_pos h).2

/-! ## The numeral of an integer -/

theorem ofInt_of_nonneg {v : Int} (h : 0 ≤ v) : ofInt v = digits v.natAbs := if_neg (by omega)

theorem ofInt_of_neg {v : Int} (h : v < 0) : ofInt v = 45 :: digits v.natAbs := if_pos h

theorem ofInt_zero : ofInt 0 = [48] := digits_of_lt (n := 0) (by decide)

/-- The numeral of an integer is in canonical form. -/
theorem isCanonical_ofInt (v : Int) : IsCanonical (ofInt v) v := by
  -- One case for each of the canonical forms: a sign, zero, digits alone.
  rcases lt_trichotomy v 0 with hneg | rfl | hpos
  · have habs : -(v.natAbs : Int) = v := by omega
    have hcanonical := IsCanonical.negative (unpadded_digits (n := v.natAbs) (by omega))
    rwa [value_digits, habs, ← ofInt_of_neg hneg] at hcanonical
  · rw [ofInt_zero]
    exact .zero
  · have habs : (v.natAbs : Int) = v := by omega
    have hcanonical := IsCanonical.positive (unpadded_digits (n := v.natAbs) (by omega))
    rwa [value_digits, habs, ← ofInt_of_nonneg hpos.le] at hcanonical

/-- There is no other text in canonical form for that integer. -/
theorem IsCanonical.eq_ofInt {text : Bytes} {v : Int} (h : IsCanonical text v) :
    text = ofInt v := by
  cases h with
  | zero => exact ofInt_zero.symm
  | positive hds => rw [ofInt_of_nonneg (by omega), Int.natAbs_natCast, digits_value hds]
  | negative hds =>
    have hpos := hds.value_pos
    rw [ofInt_of_neg (by omega), Int.natAbs_neg, Int.natAbs_natCast, digits_value hds]

/-- An integer has one canonical numeral. -/
theorem isCanonical_iff {text : Bytes} {v : Int} : IsCanonical text v ↔ text = ofInt v :=
  ⟨IsCanonical.eq_ofInt, fun h => h ▸ isCanonical_ofInt v⟩

/-- Zero is not written with a minus sign. -/
theorem not_isCanonical_minus_zero (v : Int) : ¬IsCanonical [45, 48] v := by
  intro h
  cases h with
  | positive hds => exact absurd (hds.all 45 List.mem_cons_self) (by decide)
  | negative hds =>
    obtain ⟨d, hd, hne⟩ := hds.head
    exact hne (Option.some.inj hd).symm

/-- A numeral is made of digits and at most a minus sign. -/
theorem isDigit_of_mem_ofInt {v : Int} {c : Char8} (h : c ∈ ofInt v) :
    Char8.isDigit c = true ∨ c = 45 := by
  unfold ofInt at h
  split at h
  · rcases List.mem_cons.1 h with rfl | h
    · exact .inr rfl
    · exact .inl (isDigit_of_mem_digits h)
  · exact .inl (isDigit_of_mem_digits h)

/-- Different integers have different numerals. -/
theorem ofInt_injective {v w : Int} (h : ofInt v = ofInt w) : v = w := by
  -- Digits alone never begin with a minus sign.
  have hminus (n m : Nat) : digits n ≠ 45 :: digits m := by
    intro heq
    have hdigit := isDigit_of_mem_digits (n := n) (d := 45) (heq ▸ List.mem_cons_self)
    exact absurd hdigit (by decide)
  have habs {n m : Nat} (hdigits : digits n = digits m) : n = m := by
    rw [← value_digits n, hdigits, value_digits]
  unfold ofInt at h
  split at h <;> split at h
  · have := habs (List.cons.inj h).2
    omega
  · exact absurd h.symm (hminus _ _)
  · exact absurd h (hminus _ _)
  · have := habs h
    omega

end ValueText.Numeral
