import Mathlib
import ValueText.Number.Stepwise
import ValueText.Proofs.IntegerSplit

/-!
# Reading integers is exact

The two 64-bit readers are decided by the sign and the digits of the split of their text
(`IntegerSplit`).  They yield the integer that these denote if their type has it, and tell a text
without digits apart from an integer that is out of range.

## Key results

- `Scan.magnitude?_eq`: the magnitude of digits is found exactly if it fits into a word,
  although the reader stops at the first digit that is too much
- `Stepwise.scanInteger_eq`, `Stepwise.accumulate_eq`, `Stepwise.readWord_eq`: the machine steps
  do not trap and yield the same as `readInteger`
- `readInteger_exact`: what the two readers yield on every text
-/

namespace ValueText

/-! ## The magnitude of a run of digits -/

/-- The leading digit counts as often as the place of the digits behind it says. -/
theorem Numeral.value_cons (d : Char8) (ds : Bytes) :
    value (d :: ds) = Char8.digitValue d * 10 ^ ds.length + value ds := by
  -- `value` takes digits from the left, so a digit can only be split off at the right.
  induction ds using List.reverseRecOn with
  | nil => simp [value]
  | append_singleton ds e ih =>
    rw [← List.cons_append, value_append_singleton, ih, value_append_singleton,
      List.length_append, List.length_singleton, pow_succ]
    ring

namespace Scan

theorem appendDigit?_of_lt {sum : UInt64} {d : Char8}
    (h : sum.toNat * 10 + d.digitValue < 2 ^ 64) :
    appendDigit? sum d = some (UInt64.ofNatLT (sum.toNat * 10 + d.digitValue) h) :=
  dif_pos h

theorem appendDigit?_of_not_lt {sum : UInt64} {d : Char8}
    (h : ¬sum.toNat * 10 + d.digitValue < 2 ^ 64) : appendDigit? sum d = none :=
  dif_neg h

/-- The reader stops at the first digit that makes the magnitude too large, and that happens
    exactly if the magnitude of all digits is too large. -/
theorem foldlM_appendDigit? (sum : UInt64) (ds : Bytes) :
    ds.foldlM appendDigit? sum =
      if sum.toNat * 10 ^ ds.length + Numeral.value ds < 2 ^ 64 then
        some (UInt64.ofNat (sum.toNat * 10 ^ ds.length + Numeral.value ds))
      else none := by
  induction ds generalizing sum with
  | nil =>
    have hsum := sum.toNat_lt
    simp [Numeral.value_nil, hsum]
  | cons d ds ih =>
    -- The total that counts stays the same when `d` moves from the digits into the sum.
    have htotal : sum.toNat * 10 ^ (d :: ds).length + Numeral.value (d :: ds) =
        (sum.toNat * 10 + Char8.digitValue d) * 10 ^ ds.length + Numeral.value ds := by
      rw [Numeral.value_cons, List.length_cons, pow_succ]
      ring
    rw [htotal, List.foldlM_cons]
    by_cases hnext : sum.toNat * 10 + Char8.digitValue d < 2 ^ 64
    · rw [appendDigit?_of_lt hnext]
      exact ih _
    · -- What the digits behind `d` add cannot bring the sum back into range.
      have hpos : 1 ≤ 10 ^ ds.length := Nat.one_le_pow _ _ (by decide)
      have hmono := Nat.le_mul_of_pos_right (sum.toNat * 10 + Char8.digitValue d) hpos
      rw [appendDigit?_of_not_lt hnext, if_neg (by omega)]
      rfl

/-- The magnitude of a run of digits is found exactly if it is a word, though it is only checked
    from digit to digit: a word cannot be reached again from a greater magnitude. -/
theorem magnitude?_eq (ds : Bytes) :
    magnitude? ds =
      if Numeral.value ds < 2 ^ 64 then some (UInt64.ofNat (Numeral.value ds)) else none := by
  rw [magnitude?, foldlM_appendDigit?, UInt64.toNat_zero, Nat.zero_mul, Nat.zero_add]

end Scan

/-! ## What a reader yields on a split text -/

/-- No type has an integer that needs more than 64 bits and a sign. -/
theorem IntType.range_lt_word (k : IntType) : -2 ^ 64 < k.least ∧ k.greatest < 2 ^ 64 := by
  cases k <;> decide

theorem Integer.ofInt?_eq_some {k : IntType} {v : Integer k} {x : Int} (h : v.toInt = x) :
    ofInt? k x = some v := by
  rw [← h, ofInt?_toInt]

/-- The outcome of reading, without the text that an error carries. -/
def readingOutcome {k : IntType} (r : Except NumberError (Integer k)) :
    Except NumberFault (Integer k) :=
  r.mapError NumberError.fault

namespace IntegerSplit

variable {text : Bytes} (p : IntegerSplit text) {k : IntType}

/-- A reader yields what the sign and the digits of the split text denote, if there are digits and
    the type has that value. -/
theorem readInteger_eq (k : IntType) :
    readInteger k text =
      if p.digits = [] then .error ⟨.noNumber, .integer k, Utf8.decodeReplacing text⟩
      else match Integer.ofInt? k p.value with
        | some v => .ok v
        | none => .error ⟨.outOfRange, .integer k, Utf8.decodeReplacing text⟩ := by
  rw [readInteger, p.scan_integer?_eq]
  -- The reader fails for want of digits before it looks at the magnitude.
  by_cases hdigits : p.digits = []
  · simp only [hdigits, if_true]
  simp only [hdigits, if_false, Scan.magnitude?_eq]
  by_cases hword : Numeral.value p.digits < 2 ^ 64
  · simp only [hword, if_true, UInt64.toNat_ofNat_of_lt' hword]
    rfl
  · -- A magnitude beyond a word is beyond every type as well, whatever its sign.
    have hnone : Integer.ofInt? k p.value = none := by
      have := k.range_lt_word
      rw [Integer.ofInt?_eq_none_iff, value, magnitude]
      split <;> omega
    simp only [hword, if_false, hnone]

/-- A value of the type is found. -/
theorem readInteger_of_mem (hdigits : p.digits ≠ []) (hleast : k.least ≤ p.value)
    (hgreatest : p.value ≤ k.greatest) : ∃ v, readInteger k text = .ok v ∧ v.toInt = p.value := by
  have hvalue := Integer.ofInt?_eq_some (v := ⟨p.value, hleast, hgreatest⟩) rfl
  exact ⟨_, by rw [p.readInteger_eq, if_neg hdigits, hvalue], rfl⟩

/-- A value beyond the type is reported, with the text as it was given. -/
theorem readInteger_of_not_mem (hdigits : p.digits ≠ [])
    (h : p.value < k.least ∨ k.greatest < p.value) :
    readInteger k text = .error ⟨.outOfRange, .integer k, Utf8.decodeReplacing text⟩ := by
  rw [p.readInteger_eq, if_neg hdigits, Integer.ofInt?_eq_none_iff.2 h]

/-- Two texts with the same sign and digits are read alike. -/
theorem readingOutcome_congr {text' : Bytes} (q : IntegerSplit text')
    (hsign : q.sign = p.sign) (hdigits : q.digits = p.digits) (k : IntType) :
    readingOutcome (readInteger k text') = readingOutcome (readInteger k text) := by
  -- The value is made of the sign and the digits, whatever stands around them.
  have hvalue : q.value = p.value := by
    unfold value magnitude negative
    rw [hsign, hdigits]
  rw [p.readInteger_eq, q.readInteger_eq, hdigits, hvalue]
  split
  next => rfl
  next => cases Integer.ofInt? k p.value <;> rfl

end IntegerSplit

/-! ## The machine steps -/

namespace Stepwise

/-- A slice between two cuts of a text is what stands between them. -/
theorem slice_append (before mid after : Bytes) :
    slice (before ++ (mid ++ after)) before.length (before.length + mid.length) = .ok mid := by
  have hbounds : before.length ≤ before.length + mid.length ∧
      before.length + mid.length ≤ (before ++ (mid ++ after)).length := by
    simp only [List.length_append]
    omega
  rw [slice, if_pos hbounds, List.drop_left, Nat.add_sub_cancel_left, List.take_left]

/-- A slice to the end does not trap. -/
theorem slice_suffix (before after : Bytes) :
    slice (before ++ after) before.length (before ++ after).length = .ok after := by
  have hslice := slice_append before after []
  rwa [List.append_nil, ← List.length_append] at hslice

theorem countLeading_append {p : Char8 → Bool} {run rest : Bytes} (h : LongestRun p run rest) :
    countLeading p (run ++ rest) = run.length := by
  rw [countLeading, h.takeWhile_append]

/-- The sign of a split is where its blanks end. -/
theorem signAt_eq {text : Bytes} (p : IntegerSplit text) :
    signAt text p.blanks.length = (p.negative, (p.blanks ++ p.sign).length) := by
  -- The byte behind the blanks is the sign, or, without one, what the digits or the rest begin
  -- with, and that is not a sign.
  have hget : text[p.blanks.length]? = (p.sign ++ (p.digits ++ p.rest)).head? := by
    rw [List.head?_eq_getElem?, ← Nat.sub_self p.blanks.length,
      ← List.getElem?_append_right (Nat.le_refl _), p.append_eq]
  rw [signAt, hget]
  rcases p.sign_longest with ⟨c, hc, hsign⟩ | ⟨hsign, hnone⟩
  · have : c = 43 ∨ c = 45 := by simpa [Char8.isSign] using hc
    rcases this with rfl | rfl <;> simp [IntegerSplit.negative, hsign]
  · rw [IntegerSplit.negative, hsign, List.nil_append, List.append_nil]
    split
    next h => simpa [Char8.isSign] using hnone 45 h
    next h => simpa [Char8.isSign] using hnone 43 h
    next => simp

/-- No slice of the scanner misses the text. -/
theorem scanInteger_eq {text : Bytes} (p : IntegerSplit text) :
    scanInteger text = .ok (if p.digits = [] then none else some (p.negative, p.digits)) := by
  have hblanks : countLeading Char8.isBlank text = p.blanks.length := by
    have hcount := countLeading_append p.blanks_longest
    rwa [p.append_eq] at hcount
  -- Both slices are cut where the split cuts the text, so their bounds lie inside it.
  have hunsigned : slice text (p.blanks ++ p.sign).length text.length =
      .ok (p.digits ++ p.rest) := by
    have hslice := slice_suffix (p.blanks ++ p.sign) (p.digits ++ p.rest)
    rwa [List.append_assoc, p.append_eq] at hslice
  have hdigits : slice text (p.blanks ++ p.sign).length
      ((p.blanks ++ p.sign).length + p.digits.length) = .ok p.digits := by
    have hslice := slice_append (p.blanks ++ p.sign) p.digits p.rest
    rwa [List.append_assoc, p.append_eq] at hslice
  simp only [scanInteger, hblanks, signAt_eq p, hunsigned, bind, Except.bind,
    countLeading_append p.digits_longest, List.length_eq_zero_iff, hdigits]
  split <;> rfl

/-- A digit is not below the digit zero, so that its number is found without a trap. -/
theorem subtract_digit {d : Char8} (h : d.isDigit = true) :
    ∃ n, subtract d 48 = .ok n ∧ n.toNat = d.digitValue := by
  have hd : 48 ≤ d ∧ d ≤ 57 := by simpa [Char8.isDigit] using h
  refine ⟨d - 48, if_pos hd.1, ?_⟩
  rw [UInt8.toNat_sub_of_le _ _ hd.1]
  rfl

/-- The checked steps of a digit append it. -/
theorem accumulate_eq {ds : Bytes} (h : ∀ d ∈ ds, d.isDigit = true) (sum : UInt64) :
    accumulate sum ds = .ok (ds.foldlM Scan.appendDigit? sum) := by
  -- By the digits, over all sums; the sum of a step is where the next one begins.
  induction ds generalizing sum with
  | nil => rfl
  | cons d ds ih =>
    obtain ⟨n, hsub, hn⟩ := subtract_digit (h d List.mem_cons_self)
    have ih := ih fun e he => h e (List.mem_cons_of_mem d he)
    rw [accumulate, List.foldlM_cons]
    by_cases htens : sum.toNat * 10 < 2 ^ 64
    · -- No step wraps around, so the words are the numbers that they stand for.
      have hproduct : product? sum 10 = some (sum * 10) := if_pos htens
      have hten : (sum * 10).toNat = sum.toNat * 10 :=
        (UInt64.toNat_mul sum 10).trans (Nat.mod_eq_of_lt htens)
      have hsum : sum? (sum * 10) n.toUInt64 = Scan.appendDigit? sum d := by
        rw [sum?, hten, UInt8.toNat_toUInt64, hn]
        by_cases hnext : sum.toNat * 10 + d.digitValue < 2 ^ 64
        · rw [Scan.appendDigit?_of_lt hnext]
          refine (if_pos hnext).trans (congrArg some (UInt64.toNat_inj.1 ?_))
          rw [UInt64.toNat_add, hten, UInt8.toNat_toUInt64, hn, Nat.mod_eq_of_lt hnext,
            UInt64.toNat_ofNatLT]
        · rw [Scan.appendDigit?_of_not_lt hnext]
          exact if_neg hnext
      rw [hproduct]
      simp only [hsub, bind, Except.bind, hsum]
      cases Scan.appendDigit? sum d with
      | none => rfl
      | some next => exact ih next
    · -- The product is checked before the digit is added, but the sum would not fit either.
      have hproduct : product? sum 10 = none := if_neg htens
      rw [hproduct, Scan.appendDigit?_of_not_lt (by omega)]
      rfl

/-- The machine finds the same magnitude for the digits of a split text, and no digit makes it trap,
    since all of them are digits. -/
theorem accumulate_zero_eq {text : Bytes} (p : IntegerSplit text) :
    accumulate 0 p.digits = .ok (Scan.magnitude? p.digits) :=
  accumulate_eq p.digits_longest.all 0

theorem toInt64_eq_ofNat (m : UInt64) : m.toInt64 = Int64.ofNat m.toNat := by
  rw [← UInt64.toInt64_ofNat', UInt64.ofNat_toNat]

/-- Negation as a word is exact down to the least signed word. -/
theorem signedWord?_eq (negative : Bool) (m : UInt64) :
    signedWord? negative m =
      Integer.ofInt? .i64 (if negative then -(m.toNat : Int) else m.toNat) := by
  have hleast : IntType.least .i64 = -2 ^ 63 := by decide
  have hgreatest : IntType.greatest .i64 = 2 ^ 63 - 1 := by decide
  have hmax : Int64.maxValue.toUInt64.toNat = 2 ^ 63 - 1 := rfl
  have hbeyond : (Int64.maxValue.toUInt64 + 1).toNat = 2 ^ 63 := rfl
  symm
  cases negative with
  | true =>
    -- The bound is `2 ^ 63` here, one more than for the other sign.
    simp only [signedWord?, if_true, UInt64.lt_iff_toNat_lt, hbeyond]
    split
    next h =>
      rw [Integer.ofInt?_eq_none_iff]
      omega
    next h =>
      apply Integer.ofInt?_eq_some
      rw [Integer.toInt_ofInt64, toInt64_eq_ofNat, Int64.toInt_neg_ofNat_of_le (by omega)]
  -- Without a minus sign the word itself is the value.
  | false =>
    simp only [signedWord?, Bool.false_eq_true, if_false, UInt64.lt_iff_toNat_lt, hmax]
    split
    next h =>
      rw [Integer.ofInt?_eq_none_iff]
      omega
    next h =>
      apply Integer.ofInt?_eq_some
      rw [Integer.toInt_ofInt64, toInt64_eq_ofNat, Int64.toInt_ofNat_of_lt (by omega)]

/-- The machine finds an unsigned word exactly if the type has the value: with a minus sign, that is
    the case for zero alone. -/
theorem unsignedWord?_eq (negative : Bool) (m : UInt64) :
    unsignedWord? negative m =
      Integer.ofInt? .u64 (if negative then -(m.toNat : Int) else m.toNat) := by
  have hleast : IntType.least .u64 = 0 := by decide
  have hgreatest : IntType.greatest .u64 = 2 ^ 64 - 1 := by decide
  have hlt := m.toNat_lt
  symm
  by_cases hminus : negative = true ∧ m ≠ 0
  -- A minus sign before anything but zero is beyond the type.
  · have hpos : m.toNat ≠ 0 := fun hzero => hminus.2 (UInt64.toNat_inj.1 hzero)
    have hword : unsignedWord? negative m = none := if_pos (by simpa using hminus)
    rw [hword, if_pos hminus.1, Integer.ofInt?_eq_none_iff]
    omega
  · -- Either there is no minus sign or `-0` is read, which is zero.
    have hword : unsignedWord? negative m = some (.ofUInt64 m) := if_neg (by simpa using hminus)
    rw [hword]
    apply Integer.ofInt?_eq_some
    rw [Integer.toInt_ofUInt64]
    split
    next hneg =>
      have hzero : m = 0 := not_not.1 fun hm => hminus ⟨hneg, hm⟩
      rw [hzero]
      rfl
    next => rfl

/-- A reader whose words are exact does not trap, and yields what `readInteger` yields. -/
theorem readWord_eq {k : IntType} {word? : Bool → UInt64 → Option (Integer k)}
    (h : ∀ negative m, word? negative m =
      Integer.ofInt? k (if negative then -(m.toNat : Int) else m.toNat))
    (text : Bytes) : readWord k word? text = .ok (readInteger k text) := by
  obtain ⟨p⟩ := IntegerSplit.exists_split text
  rw [readWord, readInteger, scanInteger_eq p, p.scan_integer?_eq]
  -- The three ways to fail come in the same order: no digits, too many, not in the type.
  by_cases hdigits : p.digits = []
  · simp only [hdigits, if_true]
    rfl
  · simp only [hdigits, if_false, bind, Except.bind, accumulate_zero_eq p]
    cases Scan.magnitude? p.digits with
    | none => rfl
    | some m =>
      simp only [h]
      cases Integer.ofInt? k (if p.negative then -(m.toNat : Int) else m.toNat) <;> rfl

end Stepwise

/-- Reading an integer is exact on every text.  The text splits in one way; the machine steps of
    the two readers do not trap on it; without digits there is no number; with digits, the
    number that they denote is yielded if the type has it and is out of range otherwise; and
    neither the blanks nor the rest make a difference. -/
theorem readInteger_exact (text : Bytes) :
    ∃ p : IntegerSplit text, (∀ q : IntegerSplit text, q = p) ∧
      Stepwise.readInt64 text = .ok (readInteger .i64 text) ∧
      Stepwise.readUInt64 text = .ok (readInteger .u64 text) ∧
      (p.digits = [] →
        readInteger .i64 text =
          .error ⟨.noNumber, .integer .i64, Utf8.decodeReplacing text⟩ ∧
        readInteger .u64 text =
          .error ⟨.noNumber, .integer .u64, Utf8.decodeReplacing text⟩) ∧
      (p.digits ≠ [] →
        (-2 ^ 63 ≤ p.value ∧ p.value ≤ 2 ^ 63 - 1 →
          ∃ v, readInteger .i64 text = .ok v ∧ v.toInt = p.value) ∧
        (¬(-2 ^ 63 ≤ p.value ∧ p.value ≤ 2 ^ 63 - 1) →
          readInteger .i64 text =
            .error ⟨.outOfRange, .integer .i64, Utf8.decodeReplacing text⟩) ∧
        (p.magnitude < 2 ^ 64 ∧ (p.sign ≠ [45] ∨ p.magnitude = 0) →
          ∃ v, readInteger .u64 text = .ok v ∧ v.toInt = p.magnitude) ∧
        (¬(p.magnitude < 2 ^ 64 ∧ (p.sign ≠ [45] ∨ p.magnitude = 0)) →
          readInteger .u64 text =
            .error ⟨.outOfRange, .integer .u64, Utf8.decodeReplacing text⟩)) ∧
      (NumberType.integer .i64).name = "i64" ∧ (NumberType.integer .u64).name = "u64" ∧
      ∀ (text' : Bytes) (q : IntegerSplit text'), q.sign = p.sign → q.digits = p.digits →
        ∀ k, readingOutcome (readInteger k text') = readingOutcome (readInteger k text) := by
  obtain ⟨p⟩ := IntegerSplit.exists_split text
  have hleast : IntType.least .i64 = -2 ^ 63 := by decide
  have hgreatest : IntType.greatest .i64 = 2 ^ 63 - 1 := by decide
  have hleast' : IntType.least .u64 = 0 := by decide
  have hgreatest' : IntType.greatest .u64 = 2 ^ 64 - 1 := by decide
  refine ⟨p, fun q => q.eq_of_split p, Stepwise.readWord_eq Stepwise.signedWord?_eq text,
    Stepwise.readWord_eq Stepwise.unsignedWord?_eq text, fun hdigits => ?_,
    fun hdigits => ⟨fun hin => ?_, fun hout => ?_, fun hin => ?_, fun hout => ?_⟩, rfl, rfl,
    fun text' q hsign hdigits k => p.readingOutcome_congr q hsign hdigits k⟩
  · rw [p.readInteger_eq, p.readInteger_eq, if_pos hdigits, if_pos hdigits]
    exact ⟨rfl, rfl⟩
  · exact p.readInteger_of_mem hdigits (by omega) (by omega)
  · exact p.readInteger_of_not_mem hdigits (by omega)
  -- For `u64` the magnitude decides, unless a minus sign makes the integer negative.
  · have hvalue := p.value_eq_magnitude hin.2
    obtain ⟨v, hv, hint⟩ := p.readInteger_of_mem (k := .u64) hdigits (by omega) (by omega)
    exact ⟨v, hv, hint.trans hvalue⟩
  · refine p.readInteger_of_not_mem hdigits ?_
    by_cases hsign : p.sign ≠ [45] ∨ p.magnitude = 0
    · have hvalue := p.value_eq_magnitude hsign
      have hlarge : ¬p.magnitude < 2 ^ 64 := fun hsmall => hout ⟨hsmall, hsign⟩
      right
      omega
    · have hneg := p.value_neg hsign
      left
      omega

end ValueText
