import ValueText.Number.StepwiseFloat
import ValueText.Proofs.FloatSyntax
import ValueText.Proofs.IntegerReading

/-!
# Finding the end of a floating-point number

The machine steps that look for the end of a number go through the positions of a text, while the
scanner hands on what is left of it.  The two agree as long as a position is where what is left
begins (`At`).  Since every slice is taken at such a position, none of them traps.

## Key results

- `Stepwise.scanFloat_eq`: the machine steps find the end of what the scanner takes
-/

namespace ValueText

namespace Stepwise

/-- What stands in a text from a position on. -/
def At (bytes : Bytes) (pos : Nat) (after : Bytes) : Prop :=
  ∃ before, before ++ after = bytes ∧ before.length = pos

namespace At

variable {bytes after : Bytes} {pos : Nat}

theorem zero (bytes : Bytes) : At bytes 0 bytes := ⟨[], rfl, rfl⟩

/-- Going on by a stretch of bytes leaves what follows it. -/
theorem append (mid : Bytes) (h : At bytes pos (mid ++ after)) :
    At bytes (pos + mid.length) after := by
  obtain ⟨before, rfl, rfl⟩ := h
  exact ⟨before ++ mid, by rw [List.append_assoc], List.length_append⟩

theorem cons {c : Char8} (h : At bytes pos (c :: after)) : At bytes (pos + 1) after :=
  append [c] h

/-- The slice from a position to the end does not trap and is the text that lies there. -/
theorem slice_eq (h : At bytes pos after) : slice bytes pos bytes.length = .ok after := by
  obtain ⟨before, rfl, rfl⟩ := h
  exact slice_suffix before after

/-- The byte at a position is the first of the text that lies there; at the end there is none. -/
theorem getElem?_eq (h : At bytes pos after) : bytes[pos]? = after.head? := by
  obtain ⟨before, rfl, rfl⟩ := h
  rw [List.getElem?_append_right (Nat.le_refl _), Nat.sub_self, List.head?_eq_getElem?]

end At

variable {bytes after : Bytes} {pos : Nat}

theorem slice_zero {count : Nat} (h : count ≤ bytes.length) :
    slice bytes 0 count = .ok (bytes.take count) := by
  rw [slice, if_pos ⟨Nat.zero_le _, h⟩, List.drop_zero, Nat.sub_zero]

/-! ## Signs, digits and words -/

/-- Behind the sign, the position and the remaining text still belong together. -/
theorem at_signAt (h : At bytes pos after) : At bytes (signAt bytes pos).2 (Scan.sign after).2 := by
  rw [signAt, h.getElem?_eq]
  -- By the same cases as the scanner: the end, a minus sign, a plus sign, any other byte.
  cases after with
  | nil => exact h
  | cons c tail =>
    by_cases hminus : c = 45
    · subst hminus
      exact h.cons
    by_cases hplus : c = 43
    · subst hplus
      exact h.cons
    simpa [Scan.sign, hminus, hplus] using h

/-- The digits are counted in a slice, which does not trap, and end where the scanner leaves its
    rest. -/
theorem digitsAt_eq (h : At bytes pos after) :
    digitsAt bytes pos = .ok (Scan.splitDigits after).1.length ∧
      At bytes (pos + (Scan.splitDigits after).1.length) (Scan.splitDigits after).2 := by
  constructor
  · rw [digitsAt, h.slice_eq]
    rfl
  · rw [← Scan.splitDigits_append after] at h
    exact h.append _

/-- A word is compared only where the text is long enough, so that its slice does not trap; the
    scanner takes as many bytes as there are and finds the word in the same texts. -/
theorem wordAt_eq (h : At bytes pos after) (lowercase : Bytes) :
    wordAt bytes pos lowercase = .ok (Scan.word? lowercase after).isSome := by
  rw [wordAt, h.slice_eq]
  by_cases hlength : lowercase.length ≤ after.length
  · simp only [bind, Except.bind, if_pos hlength, slice_zero hlength, Scan.word?]
    -- With enough bytes left, both compare the same ones.
    by_cases hword : (after.take lowercase.length).map Char8.toLower = lowercase
    · rw [if_pos hword]
      exact congrArg Except.ok (beq_iff_eq.2 hword)
    · rw [if_neg hword]
      exact congrArg Except.ok (beq_eq_false_iff_ne.2 hword)
  · -- A text that is too short is not as long as the word.
    have hword : ¬(after.take lowercase.length).map Char8.toLower = lowercase := by
      intro hword
      have := congrArg List.length hword
      rw [List.length_map, List.length_take] at this
      omega
    simp only [bind, Except.bind, if_neg hlength, Scan.word?, if_neg hword]
    rfl

/-- Behind a word that was found lies what the scanner leaves. -/
theorem at_word? {lowercase rest : Bytes} (h : At bytes pos after)
    (hword : Scan.word? lowercase after = some rest) : At bytes (pos + lowercase.length) rest := by
  obtain ⟨word, rfl, rfl⟩ := FloatSyntax.word?_sound hword
  rw [List.length_map]
  exact h.append word

/-- The words are tried in the same order, and the first that fits ends at the same position. -/
theorem wordEnd_eq (h : At bytes pos after) (words : List (Bytes × Scan.FloatText)) :
    ∃ found, wordEnd bytes pos (words.map (·.1)) = .ok found ∧
      Option.Rel (At bytes) found ((words.findSome? fun (lowercase, value) =>
        (Scan.word? lowercase after).map (value, ·)).map (·.2)) := by
  -- The list of words is the one the scanner has, less the values that they stand for.
  induction words with
  | nil => exact ⟨none, rfl, .none⟩
  | cons entry words ih =>
    obtain ⟨lowercase, value⟩ := entry
    rw [List.map_cons, wordEnd, wordAt_eq h, List.findSome?_cons]
    simp only [bind, Except.bind]
    cases hword : Scan.word? lowercase after with
    | none => exact ih
    | some rest => exact ⟨some (pos + lowercase.length), rfl, .some (at_word? h hword)⟩

/-! ## Significands and exponents -/

/-- The digits on both sides of the point are counted where the scanner splits them off. -/
theorem significandEnd_eq (h : At bytes pos after) :
    ∃ found, significandEnd bytes pos = .ok found ∧
      Option.Rel (At bytes) found ((Scan.significand? after).map (·.2.2)) := by
  obtain ⟨hwhole, hbehind⟩ := digitsAt_eq h
  rw [significandEnd, hwhole]
  simp only [bind, Except.bind, hbehind.getElem?_eq]
  cases hsplit : Scan.splitDigits after with
  | mk whole behind =>
    rw [hsplit] at hbehind
    simp only [List.length_eq_zero_iff]
    by_cases hpoint : ∃ text, behind = 46 :: text
    · -- Both give up if there are no digits, the machine steps by counts and the scanner by lists.
      obtain ⟨text, rfl⟩ := hpoint
      obtain ⟨hfraction, hrest⟩ := digitsAt_eq hbehind.cons
      rw [FloatSyntax.significand?_of_point hsplit, List.head?_cons, if_pos rfl, hfraction]
      simp only [List.length_eq_zero_iff, Bool.and_eq_true, List.isEmpty_iff]
      split
      next => exact ⟨none, rfl, .none⟩
      next => exact ⟨_, rfl, .some hrest⟩
    · have hpoint : ∀ text, behind ≠ 46 :: text := fun text htext => hpoint ⟨text, htext⟩
      have hhead : ¬behind.head? = some 46 := by
        intro hhead
        obtain ⟨text, htext⟩ := List.head?_eq_some_iff.1 hhead
        exact hpoint text htext
      rw [FloatSyntax.significand?_of_no_point hsplit hpoint, if_neg hhead]
      simp only [List.isEmpty_iff]
      split
      next => exact ⟨none, rfl, .none⟩
      next => exact ⟨_, rfl, .some hbehind⟩

/-- The exponent ends at the position where the scanner leaves its rest, written or absent. -/
theorem exponentEnd_eq (h : At bytes pos after) :
    ∃ last, exponentEnd bytes pos = .ok last ∧ At bytes last (Scan.exponent after).2 := by
  rw [exponentEnd, h.getElem?_eq]
  cases after with
  | nil => exact ⟨pos, rfl, h⟩
  | cons mark signed =>
    rw [Scan.exponent, List.head?_cons, Option.any_some]
    -- A mark with nothing behind it belongs to neither; then both stay in front of it.
    by_cases hmark : mark = 101 ∨ mark = 69
    · have hisMark : WholeText.isMark mark = true := by simpa [WholeText.isMark] using hmark
      obtain ⟨hdigits, hrest⟩ := digitsAt_eq (at_signAt h.cons)
      simp only [if_pos hisMark, if_pos hmark, hdigits, bind, Except.bind, Scan.integer?,
        List.length_eq_zero_iff, List.isEmpty_iff]
      -- Without digits, neither of the two goes beyond the mark.
      by_cases hnone : (Scan.splitDigits (Scan.sign signed).2).1 = []
      · simp only [hnone, if_true]
        exact ⟨pos, rfl, h⟩
      · simp only [hnone, if_false]
        exact ⟨_, rfl, hrest⟩
    · have hisMark : ¬WholeText.isMark mark = true := by simpa [WholeText.isMark] using hmark
      rw [if_neg hisMark, if_neg hmark]
      exact ⟨pos, rfl, h⟩

/-! ## Numbers -/

/-- The machine steps do not trap, and end where the scanner leaves the rest of the text. -/
theorem scanFloat_eq (bytes : Bytes) :
    ∃ found, scanFloat bytes = .ok found ∧
      Option.Rel (At bytes) found ((Scan.float? bytes).map (·.2.2)) := by
  -- The three parts of the scan are known from their own lemmas, each from where the last one
  -- ended.
  have hsign := at_signAt (At.zero bytes)
  obtain ⟨foundWord, hword, hwordAt⟩ := wordEnd_eq hsign Scan.specialWords
  obtain ⟨foundSignificand, hsignificand, hsignificandAt⟩ := significandEnd_eq hsign
  rw [scanFloat, hword]
  simp only [bind, Except.bind, Scan.float?]
  -- Trying the words in order is what `Scan.special?` does.
  change Option.Rel _ _ ((Scan.special? (Scan.sign bytes).2).map _) at hwordAt
  cases hspecial : Scan.special? (Scan.sign bytes).2 with
  | some result =>
    rw [hspecial] at hwordAt
    cases hwordAt with
    | some hlast => exact ⟨_, rfl, .some hlast⟩
  -- With no word found, both go on to the significand.
  | none =>
    rw [hspecial] at hwordAt
    cases hwordAt with
    | none =>
      simp only [hsignificand]
      cases hscan : Scan.significand? (Scan.sign bytes).2 with
      | none =>
        rw [hscan] at hsignificandAt
        cases hsignificandAt with
        | none => exact ⟨none, rfl, .none⟩
      | some result =>
        rw [hscan] at hsignificandAt
        cases hsignificandAt with
        | some hbehind =>
          obtain ⟨last, hexponent, hlast⟩ := exponentEnd_eq hbehind
          simp only [hexponent]
          exact ⟨some last, rfl, .some hlast⟩

end Stepwise

end ValueText
