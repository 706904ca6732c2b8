import Mathlib
import ValueText.Number.Scan
import ValueText.Proofs.LongestRun

/-!
# Splitting a text at its integer

Every text is blanks, a sign, digits and a rest, each as long as possible, and it is so in one way
(`IntegerSplit`).  The scanner of integers finds the sign, the digits and the rest of that split.

## Key results

- `IntegerSplit.exists_split`, `IntegerSplit.eq_of_split`: there is one split of every text
- `IntegerSplit.scan_integer?_eq`: what the scanner finds
-/

namespace ValueText

def Char8.isSign (c : Char8) : Bool := c == 43 || c == 45

/-- A text as blanks, a sign, digits and a rest, each as long as possible. -/
structure IntegerSplit (text : Bytes) where
  blanks : Bytes
  /-- The sign, or nothing. -/
  sign : Bytes
  digits : Bytes
  rest : Bytes
  append_eq : blanks ++ (sign ++ (digits ++ rest)) = text
  blanks_longest : LongestRun Char8.isBlank blanks (sign ++ (digits ++ rest))
  sign_longest : (∃ c, c.isSign = true ∧ sign = [c]) ∨
    (sign = [] ∧ ∀ c, (digits ++ rest).head? = some c → c.isSign = false)
  digits_longest : LongestRun Char8.isDigit digits rest

namespace IntegerSplit

variable {text : Bytes}

/-- The natural number that the digits denote. -/
def magnitude (p : IntegerSplit text) : Nat := Numeral.value p.digits

def negative (p : IntegerSplit text) : Bool := p.sign == [45]

/-- The integer that the sign and the digits denote. -/
def value (p : IntegerSplit text) : Int :=
  if p.negative then -(p.magnitude : Int) else p.magnitude

/-- Every text can be split. -/
theorem exists_split (text : Bytes) : Nonempty (IntegerSplit text) := by
  have hblanks := LongestRun.takeWhile_dropWhile Char8.isBlank text
  have happend := List.takeWhile_append_dropWhile (p := Char8.isBlank) (l := text)
  set blanks := text.takeWhile Char8.isBlank
  set unblank := text.dropWhile Char8.isBlank
  have hsplit (unsigned : Bytes) := List.takeWhile_append_dropWhile (p := Char8.isDigit)
    (l := unsigned)
  have hdigits := LongestRun.takeWhile_dropWhile Char8.isDigit
  -- Blanks and digits are cut off by their classes; for the sign, one byte is looked at.
  by_cases hsign : ∃ c, c.isSign = true ∧ unblank.head? = some c
  · obtain ⟨c, hc, hhead⟩ := hsign
    obtain ⟨unsigned, hcons⟩ := List.head?_eq_some_iff.1 hhead
    refine ⟨⟨blanks, [c], _, _, ?_, ?_, .inl ⟨c, hc, rfl⟩, hdigits unsigned⟩⟩
    · rw [hsplit, List.singleton_append, ← hcons, happend]
    · rwa [hsplit, List.singleton_append, ← hcons]
  · push Not at hsign
    refine ⟨⟨blanks, [], _, _, ?_, ?_, .inr ⟨rfl, ?_⟩, hdigits unblank⟩⟩
    · rw [hsplit, List.nil_append, happend]
    · rwa [hsplit, List.nil_append]
    · intro c hc
      rw [hsplit] at hc
      by_contra h
      exact hsign c (by simpa using h) hc

/-- A text can be split in one way only. -/
theorem eq_of_split (p q : IntegerSplit text) : p = q := by
  obtain ⟨hblanks, hunblank⟩ :=
    p.blanks_longest.unique q.blanks_longest (p.append_eq.trans q.append_eq.symm)
  -- Two splits agree from the left to the right: the blanks, then the sign, then the digits.
  have hsign : p.sign = q.sign ∧ p.digits ++ p.rest = q.digits ++ q.rest := by
    rcases p.sign_longest with ⟨c, hc, hp⟩ | ⟨hp, hpnone⟩ <;>
      rcases q.sign_longest with ⟨d, hd, hq⟩ | ⟨hq, hqnone⟩ <;>
      rw [hp, hq] at hunblank ⊢
    · simpa using hunblank
    · have := hqnone c (by rw [← List.nil_append (q.digits ++ q.rest), ← hunblank]; rfl)
      simp [hc] at this
    · have := hpnone d (by rw [← List.nil_append (p.digits ++ p.rest), hunblank]; rfl)
      simp [hd] at this
    · simpa using hunblank
  obtain ⟨hdigits, hrest⟩ := p.digits_longest.unique q.digits_longest hsign.2
  cases p
  cases q
  simp_all

/-- Without a minus sign, and for zero with one, the value is the magnitude. -/
theorem value_eq_magnitude (p : IntegerSplit text) (h : p.sign ≠ [45] ∨ p.magnitude = 0) :
    p.value = p.magnitude := by
  rcases h with h | h
  · rw [value, negative, if_neg (by simpa using h)]
  · rw [value, h]
    split <;> rfl

/-- Behind a minus sign only zero is not below zero. -/
theorem value_neg (p : IntegerSplit text) (h : ¬(p.sign ≠ [45] ∨ p.magnitude = 0)) :
    p.value < 0 := by
  push Not at h
  have hpos := h.2
  rw [value, negative, if_pos (by simpa using h.1)]
  omega

/-! ## The scanner -/

variable (p : IntegerSplit text)

/-- Behind the blanks stand the sign, the digits and the rest. -/
theorem skipBlanks_eq : Scan.skipBlanks text = p.sign ++ (p.digits ++ p.rest) := by
  have hdrop := p.blanks_longest.dropWhile_append
  rwa [p.append_eq] at hdrop

/-- The scanner finds the sign of the split. -/
theorem scan_sign_eq :
    Scan.sign (p.sign ++ (p.digits ++ p.rest)) = (p.negative, p.digits ++ p.rest) := by
  rcases p.sign_longest with ⟨c, hc, hsign⟩ | ⟨hsign, hnone⟩
  · have : c = 43 ∨ c = 45 := by simpa [Char8.isSign] using hc
    rcases this with rfl | rfl <;> simp [negative, hsign, Scan.sign]
  -- Without a sign, what follows does not begin with one either.
  · rw [negative, hsign, List.nil_append]
    unfold Scan.sign
    split
    · simpa [Char8.isSign] using hnone 45 (by simp [*])
    · simpa [Char8.isSign] using hnone 43 (by simp [*])
    · simp

/-- The scanner finds the digits of the split. -/
theorem scan_integer?_eq :
    Scan.integer? (Scan.skipBlanks text) =
      if p.digits = [] then none else some (⟨p.negative, p.digits⟩, p.rest) := by
  rw [p.skipBlanks_eq, Scan.integer?, p.scan_sign_eq]
  simp only [Scan.splitDigits, p.digits_longest.takeWhile_append,
    p.digits_longest.dropWhile_append, List.isEmpty_iff]

end IntegerSplit

end ValueText
