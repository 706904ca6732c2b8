import ValueText.Proofs.CanonicalNumeral
import ValueText.Proofs.IntegerReading
import ValueText.Proofs.RenderedText

/-!
# Reading undoes rendering for integers of every width

The text of an integer is its canonical numeral, whatever the width of its type, and the two 64-bit
readers find the integer again in it, behind blanks and before anything that does not go on with a
digit.  Reading a text and rendering what was read therefore leaves a text that stays as it is when
that is done again.

## Key results

- `readInteger_numeral`: the numeral of an integer is read as that integer, if the type has it
- `readInteger_text`: rendering and reading are inverse on all ten types
-/

namespace ValueText

/-! ## Widening -/

/-- The type of 64 bits with the sign of another: integers of that other type are read as it. -/
def IntType.wide (k : IntType) : IntType := if k.signed then .i64 else .u64

/-- The wide type of a type has its whole range. -/
theorem IntType.wide_range (k : IntType) :
    k.wide.least ≤ k.least ∧ k.greatest ≤ k.wide.greatest := by
  cases k <;> decide

/-- An integer as one of 64 bits. -/
def Integer.widen {k : IntType} (v : Integer k) : Integer k.wide :=
  ⟨v.toInt, k.wide_range.1.trans v.least_le, v.le_greatest.trans k.wide_range.2⟩

/-! ## The split of a numeral -/

theorem Char8.isBlank_eq_false_of_isDigit {c : Char8} (h : c.isDigit = true) : c.isBlank = false := by
  rw [FloatSyntax.isDigit_iff] at h
  simp only [isBlank, Bool.or_eq_false_iff, beq_eq_false_iff_ne, ne_eq, ← UInt8.toNat_inj,
    UInt8.reduceToNat]
  omega

theorem Char8.isSign_eq_false_of_isDigit {c : Char8} (h : c.isDigit = true) : c.isSign = false := by
  rw [FloatSyntax.isDigit_iff] at h
  simp only [isSign, Bool.or_eq_false_iff, beq_eq_false_iff_ne, ne_eq, ← UInt8.toNat_inj,
    UInt8.reduceToNat]
  omega

/-- Behind the sign of a numeral there is a digit, whatever stands behind the digits. -/
theorem Numeral.isDigit_of_head_digits {n : Nat} {rest : Bytes} {c : Char8}
    (h : (digits n ++ rest).head? = some c) : c.isDigit = true := by
  have hdigits : FloatSyntax.Digits (digits n) := ⟨digits_ne_nil n, fun _ => isDigit_of_mem_digits⟩
  obtain ⟨d, tail, happend, hd⟩ := hdigits.head_isDigit rest
  rw [happend] at h
  exact Option.some.inj h ▸ hd

namespace IntegerSplit

variable {blanks rest : Bytes}

/-- What stands around the numeral of an integer belongs neither to its sign nor to its digits. -/
def ofNumeral (v : Int) (hblanks : ∀ c ∈ blanks, c.isBlank = true)
    (hrest : ∀ c, rest.head? = some c → c.isDigit = false) :
    IntegerSplit (blanks ++ Numeral.ofInt v ++ rest) where
  blanks := blanks
  sign := if v < 0 then [45] else []
  digits := Numeral.digits v.natAbs
  rest := rest
  append_eq := by
    unfold Numeral.ofInt
    split <;> simp
  blanks_longest := by
    refine ⟨hblanks, fun c hc => ?_⟩
    -- A numeral begins with a minus sign or a digit, and neither is blank.
    split at hc
    next =>
      obtain rfl : 45 = c := Option.some.inj hc
      rfl
    next => exact Char8.isBlank_eq_false_of_isDigit (Numeral.isDigit_of_head_digits hc)
  sign_longest := by
    split
    next => exact .inl ⟨45, rfl, rfl⟩
    next =>
      exact .inr ⟨rfl, fun c hc =>
        Char8.isSign_eq_false_of_isDigit (Numeral.isDigit_of_head_digits hc)⟩
  digits_longest := ⟨fun _ => Numeral.isDigit_of_mem_digits, hrest⟩

/-- The split of a numeral denotes the integer of which it is the numeral. -/
theorem value_ofNumeral (v : Int) (hblanks : ∀ c ∈ blanks, c.isBlank = true)
    (hrest : ∀ c, rest.head? = some c → c.isDigit = false) :
    (ofNumeral v hblanks hrest).value = v := by
  have hmagnitude : (ofNumeral v hblanks hrest).magnitude = v.natAbs := Numeral.value_digits _
  have hnegative : (ofNumeral v hblanks hrest).negative = decide (v < 0) := by
    unfold negative ofNumeral
    by_cases hv : v < 0 <;> simp [hv]
  rw [value, hmagnitude, hnegative]
  -- The sign was taken from the number, so it gives it back.
  by_cases hv : v < 0
  · rw [if_pos (decide_eq_true hv)]
    omega
  · rw [if_neg (by simpa using hv)]
    omega

end IntegerSplit

/-- The numeral of an integer is read as that integer. -/
theorem readInteger_numeral {k : IntType} (v : Integer k) {blanks rest : Bytes}
    (hblanks : ∀ c ∈ blanks, c.isBlank = true)
    (hrest : ∀ c, rest.head? = some c → c.isDigit = false) :
    readInteger k (blanks ++ Numeral.ofInt v.toInt ++ rest) = .ok v := by
  have hdigits : (IntegerSplit.ofNumeral v.toInt hblanks hrest).digits ≠ [] :=
    Numeral.digits_ne_nil v.toInt.natAbs
  rw [(IntegerSplit.ofNumeral v.toInt hblanks hrest).readInteger_eq, if_neg hdigits,
    IntegerSplit.value_ofNumeral, Integer.ofInt?_toInt]

theorem Integer.toList_text {k : IntType} (v : Integer k) :
    (Text.ofValue v).toList = Numeral.ofInt v.toInt :=
  Text.toList_ofValue v

/-- An integer is read from its own text. -/
theorem readInteger_ofValue {k : IntType} (v : Integer k) :
    readInteger k (Text.ofValue v).toList = .ok v := by
  have hread : readInteger k ([] ++ Numeral.ofInt v.toInt ++ []) = .ok v :=
    readInteger_numeral v (by simp) (by simp)
  rwa [List.nil_append, List.append_nil, ← v.toList_text] at hread

/-! ## Canonical texts -/

/-- The text of the integer that a text begins with. -/
def canonicalText (k : IntType) (text : Bytes) : Except NumberError Bytes := do
  let v ← readInteger k text
  return (Text.ofValue v).toList

/-- Making a text canonical twice is the same as doing so once. -/
theorem canonicalText_idempotent (k : IntType) (text : Bytes) :
    canonicalText k text >>= canonicalText k = canonicalText k text := by
  unfold canonicalText
  cases readInteger k text with
  | error e => rfl
  | ok v =>
    show (readInteger k (Text.ofValue v).toList >>= _) = _
    rw [readInteger_ofValue]

/-- Rendering and reading integers are inverse on all ten types.  The text of an integer is its
    canonical numeral, the only one it has; the reader of 64 bits finds the integer in it,
    whatever blanks stand before it and whatever but a digit stands behind it; and what was read
    from any text is read again from the text that it renders to. -/
theorem readInteger_text {k : IntType} (v : Integer k) {blanks rest : Bytes}
    (hblanks : ∀ c ∈ blanks, c.isBlank = true)
    (hrest : ∀ c, rest.head? = some c → c.isDigit = false) :
    ((∀ text, Numeral.IsCanonical text v.toInt ↔ text = (Text.ofValue v).toList) ∧
      (Text.ofValue v).toList ≠ [45, 48] ∧
      ∀ c ∈ (Text.ofValue v).toList, c.isDigit = true ∨ c = 45) ∧
    readInteger k.wide (blanks ++ (Text.ofValue v).toList ++ rest) = .ok v.widen ∧
    (∀ (text : Bytes) (x : Integer k.wide), readInteger k.wide text = .ok x →
      readInteger k.wide (Text.ofValue x).toList = .ok x) ∧
    ∀ text, canonicalText k.wide text >>= canonicalText k.wide = canonicalText k.wide text := by
  rw [v.toList_text]
  -- The parts are about the numeral, about reading it, and about texts that are made of what was
  -- read.
  refine ⟨⟨fun text => Numeral.isCanonical_iff, fun hminus => ?_,
    fun c hc => Numeral.isDigit_of_mem_ofInt hc⟩, readInteger_numeral v.widen hblanks hrest,
    fun text x _ => readInteger_ofValue x, canonicalText_idempotent k.wide⟩
  exact Numeral.not_isCanonical_minus_zero v.toInt (hminus ▸ Numeral.isCanonical_ofInt v.toInt)

/-- The least integer of 64 bits, between blanks and a letter. -/
theorem readInteger_text_least :
    (∀ c ∈ ([32, 9] : Bytes), c.isBlank = true) ∧
    (∀ c, ([120, 55] : Bytes).head? = some c → c.isDigit = false) ∧
    readInteger .i64 ([32, 9] ++ Bytes.ofString "-9223372036854775808" ++ [120, 55]) =
      .ok ⟨-9223372036854775808, by decide, by decide⟩ := by
  have hblanks : ∀ c ∈ ([32, 9] : Bytes), c.isBlank = true := by decide +kernel
  have hrest : ∀ c, ([120, 55] : Bytes).head? = some c → c.isDigit = false := by
    intro c hc
    obtain rfl := Option.some.inj hc
    rfl
  obtain ⟨⟨hnumeral, -, -⟩, hread, -, -⟩ := readInteger_text (k := .i64)
    ⟨-9223372036854775808, by decide, by decide⟩ hblanks hrest
  -- The text is put together as a canonical numeral, so that it must be the one that is rendered.
  have hunpadded : Numeral.Unpadded (Bytes.ofString "9223372036854775808") :=
    ⟨by decide +kernel, 57, by decide +kernel, by decide⟩
  have hvalue : Numeral.value (Bytes.ofString "9223372036854775808") = 9223372036854775808 := by
    decide +kernel
  have htext : 45 :: Bytes.ofString "9223372036854775808" =
      Bytes.ofString "-9223372036854775808" := by decide +kernel
  have hcanonical := Numeral.IsCanonical.negative hunpadded
  rw [hvalue, htext] at hcanonical
  rw [← (hnumeral _).1 hcanonical] at hread
  exact ⟨hblanks, hrest, hread⟩

end ValueText
