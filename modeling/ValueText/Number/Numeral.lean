import ValueText.Bytes

/-!
# Decimal numerals

The digits of a natural number, without leading zeros, and the number that a run of digits
stands for.  `value_digits` says that the second undoes the first.
-/

namespace ValueText.Numeral

/-- The decimal digits of a number, the leading one first; zero has the one digit `0`. -/
def digits (n : Nat) : Bytes :=
  if n < 10 then [Char8.ofDigit n]
  else digits (n / 10) ++ [Char8.ofDigit (n % 10)]
termination_by n

/-- The number that a run of digits stands for. -/
def value (ds : Bytes) : Nat :=
  ds.foldl (fun sum d => sum * 10 + Char8.digitValue d) 0

/-- The numeral of an integer: its digits, behind a minus sign if it is negative. -/
def ofInt (v : Int) : Bytes :=
  if v < 0 then 45 :: digits v.natAbs else digits v.natAbs

theorem value_nil : value [] = 0 := rfl

/-- A digit at the end counts once and moves all digits before it up by one place. -/
theorem value_append_singleton (ds : Bytes) (d : Char8) :
    value (ds ++ [d]) = value ds * 10 + Char8.digitValue d := by
  simp [value, List.foldl_append]

/-- The ten digits follow one another from 48 on. -/
theorem toNat_ofDigit {d : Nat} (h : d < 10) : (Char8.ofDigit d).toNat = 48 + d := by
  simp [Char8.ofDigit]
  omega

/-- A digit stands for the number that it was made of. -/
theorem digitValue_ofDigit {d : Nat} (h : d < 10) : Char8.digitValue (Char8.ofDigit d) = d := by
  rw [Char8.digitValue, toNat_ofDigit h]
  omega

theorem isDigit_ofDigit {d : Nat} (h : d < 10) : Char8.isDigit (Char8.ofDigit d) = true := by
  have := toNat_ofDigit h
  simp only [Char8.isDigit, Bool.and_eq_true, decide_eq_true_eq, UInt8.le_iff_toNat_le, this]
  exact ⟨Nat.le_add_right 48 d, show 48 + d ≤ 57 by omega⟩

/-- The digits of a number stand for that number. -/
@[simp] theorem value_digits (n : Nat) : value (digits n) = n := by
  fun_induction digits n with
  | case1 n h => simp [value, digitValue_ofDigit h]
  | case2 n h ih =>
    rw [value_append_singleton, ih, digitValue_ofDigit (Nat.mod_lt _ (by decide))]
    omega

/-- A numeral is made of digits only. -/
theorem isDigit_of_mem_digits {n : Nat} {d : Char8} (h : d ∈ digits n) :
    Char8.isDigit d = true := by
  -- By the recursion of `digits`: one digit, or those of the tenth part and a last one.
  fun_induction digits n with
  | case1 n hn =>
    obtain rfl := List.mem_singleton.1 h
    exact isDigit_ofDigit hn
  | case2 n hn ih =>
    rcases List.mem_append.1 h with h | h
    · exact ih h
    · obtain rfl := List.mem_singleton.1 h
      exact isDigit_ofDigit (Nat.mod_lt _ (by decide))

theorem digits_ne_nil (n : Nat) : digits n ≠ [] := by
  unfold digits
  split <;> simp

end ValueText.Numeral
