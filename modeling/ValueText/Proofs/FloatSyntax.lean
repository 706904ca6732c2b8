import ValueText.Number.Scan
import ValueText.Proofs.LongestRun

/-!
# The syntax of floating-point numbers

The texts that are floating-point numbers, by a grammar, with what each of them stands for.  The
scanner finds the longest number at the beginning of a text: what it takes is a number
(`Scan.float?_sound`), and where a number begins a text, the scanner takes at least that much
(`Scan.float?_append`).

A scanner that goes from left to right may end one part early only if what follows cannot be the
next part, and so each part has two lemmas: one on what the scanner leaves of any text that
begins with the part, and one on what it makes of the part where it ends.

## Key results

- `FloatSyntax.Number.unique`: a text stands for one number at most
- `FloatSyntax.float?_eq_none_iff`: when the scanner finds no number
- `FloatSyntax.IsLongest.float?_eq`: what the scanner finds is the longest number
-/

namespace ValueText

namespace FloatSyntax

/-! ## The grammar -/

/-- At least one digit, and nothing else. -/
structure Digits (digits : Bytes) : Prop where
  ne_nil : digits ≠ []
  all : ∀ d ∈ digits, Char8.isDigit d = true

/-- A sign, or nothing, and whether it is a minus sign. -/
inductive Sign : Bytes → Bool → Prop
  | absent : Sign [] false
  | plus : Sign [43] false
  | minus : Sign [45] true

/-- A word in upper or lower case, and its value. -/
inductive Word : Bytes → Scan.FloatText → Prop
  | infinity {word : Bytes} (h : word.map Char8.toLower = Bytes.ofString "infinity") :
      Word word .infinity
  | inf {word : Bytes} (h : word.map Char8.toLower = Bytes.ofString "inf") : Word word .infinity
  | nan {word : Bytes} (h : word.map Char8.toLower = Bytes.ofString "nan") : Word word .nan

/-- Digits with at most one point, and those before and behind it.  There may be none on one side
    of the point. -/
inductive Significand : Bytes → Bytes → Bytes → Prop
  | whole {whole : Bytes} (hwhole : Digits whole) : Significand whole whole []
  | pointed {whole fraction : Bytes} (hwhole : Digits whole)
      (hfraction : ∀ d ∈ fraction, Char8.isDigit d = true) :
      Significand (whole ++ 46 :: fraction) whole fraction
  | fraction {fraction : Bytes} (hfraction : Digits fraction) :
      Significand (46 :: fraction) [] fraction

/-- The mark of an exponent. -/
abbrev IsMark (c : Char8) : Prop := c = 101 ∨ c = 69

/-- An exponent, or nothing, and the power of ten. -/
inductive Exponent : Bytes → Int → Prop
  | absent : Exponent [] 0
  | written {mark : Char8} {sign digits : Bytes} {negative : Bool} (hmark : IsMark mark)
      (hsign : Sign sign negative) (hdigits : Digits digits) :
      Exponent (mark :: (sign ++ digits))
        (if negative then -(Numeral.value digits : Int) else Numeral.value digits)

/-- A floating-point number, whether it has a minus sign, and what stands behind the sign. -/
inductive Number : Bytes → Bool → Scan.FloatText → Prop
  | word {sign word : Bytes} {negative : Bool} {value : Scan.FloatText}
      (hsign : Sign sign negative) (hword : Word word value) : Number (sign ++ word) negative value
  | decimal {sign significand whole fraction exponent : Bytes} {negative : Bool} {power : Int}
      (hsign : Sign sign negative) (hsignificand : Significand significand whole fraction)
      (hexponent : Exponent exponent power) :
      Number (sign ++ (significand ++ exponent)) negative
        (.decimal (whole ++ fraction) (power - fraction.length))

/-- Whether a text is a floating-point number. -/
def IsNumber (text : Bytes) : Prop := ∃ negative value, Number text negative value

/-- Whether a text begins with a number and with no longer one. -/
structure IsLongest (number text : Bytes) : Prop where
  begins : number <+: text
  isNumber : IsNumber number
  longest : ∀ p, p <+: text → IsNumber p → p.length ≤ number.length

/-! ## What the parts begin with -/

/-- Digits begin with a digit, whatever follows them. -/
theorem Digits.head_isDigit {digits : Bytes} (h : Digits digits) (rest : Bytes) :
    ∃ d tail, digits ++ rest = d :: tail ∧ Char8.isDigit d = true := by
  obtain ⟨d, ds, rfl⟩ := List.exists_cons_of_ne_nil h.ne_nil
  exact ⟨d, ds ++ rest, rfl, h.all d List.mem_cons_self⟩

/-- A significand begins with a digit or with the point. -/
theorem Significand.head {significand whole fraction : Bytes}
    (h : Significand significand whole fraction) (rest : Bytes) :
    ∃ c tail, significand ++ rest = c :: tail ∧ (Char8.isDigit c = true ∨ c = 46) := by
  -- Only a significand without digits before the point begins with the point.
  cases h with
  | whole hwhole =>
    obtain ⟨d, tail, hd, hdigit⟩ := hwhole.head_isDigit rest
    exact ⟨d, tail, hd, .inl hdigit⟩
  | pointed hwhole =>
    obtain ⟨d, tail, hd, hdigit⟩ := hwhole.head_isDigit (46 :: fraction ++ rest)
    exact ⟨d, tail, by rw [List.append_assoc, hd], .inl hdigit⟩
  | fraction hfraction => exact ⟨46, fraction ++ rest, rfl, .inr rfl⟩

/-- A word begins with the letter of its small form, in either case. -/
theorem exists_head_of_map_toLower {word letters : Bytes} {letter : Char8}
    (h : word.map Char8.toLower = letter :: letters) (rest : Bytes) :
    ∃ c tail, word ++ rest = c :: tail ∧ Char8.toLower c = letter := by
  obtain ⟨c, cs, rfl, hc, -⟩ := List.map_eq_cons_iff.1 h
  exact ⟨c, cs ++ rest, rfl, hc⟩

/-- The letters that words begin with, in lower case. -/
def IsWordHead (c : Char8) : Prop := c = 105 ∨ c = 110

/-- A word begins with one of the letters that tell it from a significand. -/
theorem Word.head {word : Bytes} {value : Scan.FloatText} (h : Word word value) (rest : Bytes) :
    ∃ c tail, word ++ rest = c :: tail ∧ IsWordHead (Char8.toLower c) := by
  cases h with
  | infinity h =>
    obtain ⟨c, tail, hc, hlower⟩ := exists_head_of_map_toLower h rest
    exact ⟨c, tail, hc, .inl hlower⟩
  | inf h =>
    obtain ⟨c, tail, hc, hlower⟩ := exists_head_of_map_toLower h rest
    exact ⟨c, tail, hc, .inl hlower⟩
  | nan h =>
    obtain ⟨c, tail, hc, hlower⟩ := exists_head_of_map_toLower h rest
    exact ⟨c, tail, hc, .inr hlower⟩

theorem isDigit_iff {c : Char8} : Char8.isDigit c = true ↔ 48 ≤ c.toNat ∧ c.toNat ≤ 57 := by
  simp [Char8.isDigit, UInt8.le_iff_toNat_le]

/-- A digit and the point are no letters. -/
theorem not_isWordHead {c : Char8} (h : Char8.isDigit c = true ∨ c = 46) :
    ¬IsWordHead (Char8.toLower c) := by
  -- Neither is changed by going over to small letters: both codes are below those of the capitals.
  have hlower : Char8.toLower c = c := by
    rcases h with h | rfl
    · have hupper : ¬(65 ≤ c && c ≤ 90) = true := by
        rw [isDigit_iff] at h
        simp [UInt8.le_iff_toNat_le]
        omega
      exact if_neg hupper
    · rfl
  rw [hlower]
  rintro (rfl | rfl) <;> exact absurd h (by decide)

/-- Whether a text does not begin with a sign. -/
def Unsigned (text : Bytes) : Prop := ∀ c tail, text = c :: tail → c ≠ 43 ∧ c ≠ 45

/-- What begins with a digit or a point has no sign. -/
theorem unsigned_of_digit {text tail : Bytes} {c : Char8} (hc : text = c :: tail)
    (h : Char8.isDigit c = true ∨ c = 46) : Unsigned text := by
  rintro c' tail' hc'
  obtain ⟨rfl, -⟩ := List.cons.inj (hc.symm.trans hc')
  constructor <;> rintro rfl <;> exact absurd h (by decide)

theorem Digits.unsigned {digits : Bytes} (h : Digits digits) (rest : Bytes) :
    Unsigned (digits ++ rest) := by
  obtain ⟨c, tail, hc, hdigit⟩ := h.head_isDigit rest
  exact unsigned_of_digit hc (.inl hdigit)

theorem Significand.unsigned {significand whole fraction : Bytes}
    (h : Significand significand whole fraction) (rest : Bytes) : Unsigned (significand ++ rest) := by
  obtain ⟨c, tail, hc, hdigit⟩ := h.head rest
  exact unsigned_of_digit hc hdigit

/-- A word has no sign. -/
theorem Word.unsigned {word : Bytes} {value : Scan.FloatText} (h : Word word value)
    (rest : Bytes) : Unsigned (word ++ rest) := by
  obtain ⟨c, tail, hc, hletter⟩ := h.head rest
  rintro c' tail' hc'
  obtain ⟨rfl, -⟩ := List.cons.inj (hc.symm.trans hc')
  constructor <;> rintro rfl <;> exact absurd hletter (by unfold IsWordHead; decide)

/-! ## Signs and digits -/

/-- The scanner takes a sign as long as none follows it. -/
theorem Sign.scan {sign : Bytes} {negative : Bool} (h : Sign sign negative) {rest : Bytes}
    (hrest : Unsigned rest) : Scan.sign (sign ++ rest) = (negative, rest) := by
  cases h with
  -- With no sign written, the scanner must not find one in what follows.
  | absent =>
    rw [List.nil_append]
    unfold Scan.sign
    split
    next tail => exact absurd rfl (hrest 45 tail rfl).2
    next tail => exact absurd rfl (hrest 43 tail rfl).1
    next => rfl
  | plus => rfl
  | minus => rfl

/-- What the scanner takes is a sign, also if there is none to take. -/
theorem sign_sound (text : Bytes) :
    ∃ sign, Sign sign (Scan.sign text).1 ∧ sign ++ (Scan.sign text).2 = text := by
  unfold Scan.sign
  split
  next => exact ⟨[45], .minus, rfl⟩
  next => exact ⟨[43], .plus, rfl⟩
  next => exact ⟨[], .absent, rfl⟩

/-- Digits at the beginning of a text belong to the digits that are split off it. -/
theorem splitDigits_append_of_all {digits : Bytes} (h : ∀ d ∈ digits, Char8.isDigit d = true)
    (rest : Bytes) :
    Scan.splitDigits (digits ++ rest) =
      (digits ++ (Scan.splitDigits rest).1, (Scan.splitDigits rest).2) := by
  rw [Scan.splitDigits, List.takeWhile_append_of_pos h, List.dropWhile_append_of_pos h]
  rfl

/-- No digits are taken where the text does not begin with one. -/
theorem splitDigits_of_stop {rest : Bytes}
    (h : ∀ c tail, rest = c :: tail → Char8.isDigit c = false) :
    Scan.splitDigits rest = ([], rest) := by
  cases rest with
  | nil => rfl
  | cons c tail => simp [Scan.splitDigits, h c tail rfl]

/-- What the scanner takes are digits, and nothing of the text is lost. -/
theorem splitDigits_sound {text digits rest : Bytes} (h : Scan.splitDigits text = (digits, rest)) :
    (∀ d ∈ digits, Char8.isDigit d = true) ∧ digits ++ rest = text := by
  have hall : ∀ d ∈ (Scan.splitDigits text).1, Char8.isDigit d = true :=
    fun d => Scan.isDigit_of_mem_splitDigits
  have happend := Scan.splitDigits_append text
  rw [h] at hall happend
  exact ⟨hall, happend⟩

theorem splitDigits_suffix (text : Bytes) : (Scan.splitDigits text).2 <:+ text :=
  List.dropWhile_suffix _

/-! ## Words -/

/-- A text that begins with a word in any case is cut behind it. -/
theorem word?_append {lowercase word : Bytes} (h : word.map Char8.toLower = lowercase)
    (rest : Bytes) : Scan.word? lowercase (word ++ rest) = some rest := by
  have hlength : lowercase.length = word.length := by rw [← h, List.length_map]
  rw [Scan.word?, hlength, List.take_left, List.drop_left, if_pos h]

/-- A word that the scanner finds stands at the beginning of the text, in letters of either case. -/
theorem word?_sound {lowercase text rest : Bytes} (h : Scan.word? lowercase text = some rest) :
    ∃ word, word.map Char8.toLower = lowercase ∧ word ++ rest = text := by
  unfold Scan.word? at h
  split at h
  next hword =>
    obtain rfl := Option.some.inj h
    exact ⟨_, hword, List.take_append_drop _ _⟩
  next => exact nomatch h

/-- A text with another first letter does not begin with a word. -/
theorem word?_of_head {letter c : Char8} {letters tail : Bytes} (h : Char8.toLower c ≠ letter) :
    Scan.word? (letter :: letters) (c :: tail) = none := by
  rw [Scan.word?, List.length_cons, List.take_succ_cons, List.map_cons]
  exact if_neg fun hword => h (List.cons.inj hword).1

/-- The words are tried in order. -/
theorem special?_eq (text : Bytes) :
    Scan.special? text =
      match Scan.word? (Bytes.ofString "infinity") text, Scan.word? (Bytes.ofString "inf") text,
        Scan.word? (Bytes.ofString "nan") text with
      | some rest, _, _ => some (.infinity, rest)
      | none, some rest, _ => some (.infinity, rest)
      | none, none, some rest => some (.nan, rest)
      | none, none, none => none := by
  -- The list of words has three entries, and the first that fits decides.
  simp only [Scan.special?, Scan.specialWords, List.findSome?_cons, List.findSome?_nil]
  cases Scan.word? (Bytes.ofString "infinity") text <;>
    cases Scan.word? (Bytes.ofString "inf") text <;>
    cases Scan.word? (Bytes.ofString "nan") text <;> rfl

/-- A word at the beginning is found, though what follows may lengthen it: `inf` can go on to
    `infinity`, which has the same value. -/
theorem special?_append {word : Bytes} {value : Scan.FloatText} (h : Word word value)
    (rest : Bytes) : ∃ rest', Scan.special? (word ++ rest) = some (value, rest') ∧ rest' <:+ rest := by
  rw [special?_eq]
  cases h with
  | infinity h => exact ⟨rest, by rw [word?_append h], List.suffix_refl rest⟩
  | inf h =>
    rw [word?_append h]
    -- The longer word for infinity is tried first, and takes some of `rest` as well.
    cases hlong : Scan.word? (Bytes.ofString "infinity") (word ++ rest) with
    | none => exact ⟨rest, rfl, List.suffix_refl rest⟩
    | some rest' =>
      refine ⟨rest', rfl, ?_⟩
      obtain ⟨long, hlower, happend⟩ := word?_sound hlong
      have hlength : long.length = 8 := by
        have := congrArg List.length hlower
        rwa [List.length_map] at this
      have hlength' : word.length = 3 := by
        have := congrArg List.length h
        rwa [List.length_map] at this
      have hsum := congrArg List.length happend
      rw [List.length_append, List.length_append] at hsum
      exact List.suffix_of_suffix_length_le ⟨long, happend⟩ (List.suffix_append word rest) (by omega)
  -- The words for infinity do not begin with this letter.
  | nan h =>
    obtain ⟨c, tail, hc, hlower⟩ := exists_head_of_map_toLower h rest
    have hi : Char8.toLower c ≠ 105 := by
      rw [hlower]
      decide
    have hinfinity : Scan.word? (Bytes.ofString "infinity") (c :: tail) = none := word?_of_head hi
    have hinf : Scan.word? (Bytes.ofString "inf") (c :: tail) = none := word?_of_head hi
    have hnan := word?_append h rest
    rw [hc] at hnan ⊢
    rw [hinfinity, hinf, hnan]
    exact ⟨rest, rfl, List.suffix_refl rest⟩

/-- What the scanner takes for a word is one. -/
theorem special?_sound {text rest : Bytes} {value : Scan.FloatText}
    (h : Scan.special? text = some (value, rest)) :
    ∃ word, Word word value ∧ word ++ rest = text := by
  -- By the word that is found first.
  rw [special?_eq] at h
  cases hinfinity : Scan.word? (Bytes.ofString "infinity") text with
  | some rest' =>
    rw [hinfinity] at h
    cases h
    obtain ⟨word, hlower, happend⟩ := word?_sound hinfinity
    exact ⟨word, .infinity hlower, happend⟩
  | none =>
    cases hinf : Scan.word? (Bytes.ofString "inf") text with
    | some rest' =>
      rw [hinfinity, hinf] at h
      cases h
      obtain ⟨word, hlower, happend⟩ := word?_sound hinf
      exact ⟨word, .inf hlower, happend⟩
    | none =>
      cases hnan : Scan.word? (Bytes.ofString "nan") text with
      | some rest' =>
        rw [hinfinity, hinf, hnan] at h
        cases h
        obtain ⟨word, hlower, happend⟩ := word?_sound hnan
        exact ⟨word, .nan hlower, happend⟩
      | none =>
        rw [hinfinity, hinf, hnan] at h
        exact nomatch h

/-- No word begins with a digit or with the point. -/
theorem special?_of_head {c : Char8} {tail : Bytes} (h : Char8.isDigit c = true ∨ c = 46) :
    Scan.special? (c :: tail) = none := by
  -- None of the three words begins with a digit or a point.
  have hhead := not_isWordHead h
  rw [IsWordHead, not_or] at hhead
  have hinfinity : Scan.word? (Bytes.ofString "infinity") (c :: tail) = none :=
    word?_of_head hhead.1
  have hinf : Scan.word? (Bytes.ofString "inf") (c :: tail) = none := word?_of_head hhead.1
  have hnan : Scan.word? (Bytes.ofString "nan") (c :: tail) = none := word?_of_head hhead.2
  rw [special?_eq, hinfinity, hinf, hnan]

/-! ## Significands -/

/-- With a point behind the digits, digits are missing only if they are missing on both of its
    sides. -/
theorem significand?_of_point {text whole behind : Bytes}
    (h : Scan.splitDigits text = (whole, 46 :: behind)) :
    Scan.significand? text =
      if whole.isEmpty && (Scan.splitDigits behind).1.isEmpty then none
      else some (whole, (Scan.splitDigits behind).1, (Scan.splitDigits behind).2) := by
  simp only [Scan.significand?, h]

/-- Without a point, the significand is the digits, of which there must be some. -/
theorem significand?_of_no_point {text whole rest : Bytes}
    (h : Scan.splitDigits text = (whole, rest)) (hrest : ∀ behind, rest ≠ 46 :: behind) :
    Scan.significand? text = if whole.isEmpty then none else some (whole, [], rest) := by
  simp only [Scan.significand?, h]

/-- With a point and a digit on one of its sides, all digits that follow are taken. -/
theorem significand?_append_point {whole fraction : Bytes}
    (hwhole : ∀ d ∈ whole, Char8.isDigit d = true)
    (hfraction : ∀ d ∈ fraction, Char8.isDigit d = true) (hne : whole ≠ [] ∨ fraction ≠ [])
    (rest : Bytes) :
    Scan.significand? (whole ++ 46 :: (fraction ++ rest)) =
      some (whole, fraction ++ (Scan.splitDigits rest).1, (Scan.splitDigits rest).2) := by
  -- The digits before the point end there, since a point is none.
  have hpoint : Scan.splitDigits (46 :: (fraction ++ rest)) = ([], 46 :: (fraction ++ rest)) := by
    apply splitDigits_of_stop
    rintro c tail ⟨⟩
    decide
  have hsplit : Scan.splitDigits (whole ++ 46 :: (fraction ++ rest)) =
      (whole, 46 :: (fraction ++ rest)) := by
    rw [splitDigits_append_of_all hwhole, hpoint, List.append_nil]
  rw [significand?_of_point hsplit, splitDigits_append_of_all hfraction]
  apply if_neg
  rcases hne with hne | hne <;> simp [hne]

/-- A text that begins with a significand is cut behind it or later. -/
theorem significand?_append {significand whole fraction : Bytes}
    (h : Significand significand whole fraction) (rest : Bytes) :
    ∃ whole' fraction' rest',
      Scan.significand? (significand ++ rest) = some (whole', fraction', rest') ∧ rest' <:+ rest := by
  -- Digits that follow belong to the significand as well.
  have hsuffix := splitDigits_suffix rest
  cases h with
  | whole hwhole =>
    have hsplit := splitDigits_append_of_all hwhole.all rest
    by_cases hpoint : ∃ behind, (Scan.splitDigits rest).2 = 46 :: behind
    · -- The digits go on, and a point follows them.
      obtain ⟨behind, hpoint⟩ := hpoint
      rw [hpoint] at hsplit hsuffix
      have hbehind := (splitDigits_suffix behind).trans (List.suffix_cons 46 behind)
      rw [significand?_of_point hsplit, if_neg (by simp [hwhole.ne_nil])]
      exact ⟨_, _, _, rfl, hbehind.trans hsuffix⟩
    · rw [significand?_of_no_point hsplit fun behind hbehind => hpoint ⟨behind, hbehind⟩,
        if_neg (by simp [hwhole.ne_nil])]
      exact ⟨_, _, _, rfl, hsuffix⟩
  -- Behind the point only digits can follow, for a second point ends the significand.
  | pointed hwhole hfraction =>
    rw [List.append_assoc, List.cons_append,
      significand?_append_point hwhole.all hfraction (.inl hwhole.ne_nil)]
    exact ⟨_, _, _, rfl, hsuffix⟩
  | fraction hfraction =>
    have hnone : ∀ d ∈ ([] : Bytes), Char8.isDigit d = true := by simp
    have hscan := significand?_append_point hnone hfraction.all (.inr hfraction.ne_nil) rest
    exact ⟨_, _, _, hscan, hsuffix⟩

/-- A significand ends where neither a digit nor a point follows. -/
theorem significand?_append_of_stop {significand whole fraction rest : Bytes}
    (h : Significand significand whole fraction)
    (hrest : ∀ c tail, rest = c :: tail → Char8.isDigit c = false ∧ c ≠ 46) :
    Scan.significand? (significand ++ rest) = some (whole, fraction, rest) := by
  have hstop : Scan.splitDigits rest = ([], rest) :=
    splitDigits_of_stop fun c tail hc => (hrest c tail hc).1
  -- By the form of the significand: digits alone, digits and a point, a point and digits.
  cases h with
  | whole hwhole =>
    have hsplit := splitDigits_append_of_all hwhole.all rest
    rw [hstop, List.append_nil] at hsplit
    rw [significand?_of_no_point hsplit fun behind hc => (hrest 46 behind hc).2 rfl]
    exact if_neg (by simp [hwhole.ne_nil])
  | pointed hwhole hfraction =>
    rw [List.append_assoc, List.cons_append,
      significand?_append_point hwhole.all hfraction (.inl hwhole.ne_nil), hstop, List.append_nil]
  | fraction hfraction =>
    have hnone : ∀ d ∈ ([] : Bytes), Char8.isDigit d = true := by simp
    have hscan := significand?_append_point hnone hfraction.all (.inr hfraction.ne_nil) rest
    rw [hstop, List.append_nil] at hscan
    exact hscan

/-- What the scanner takes for a significand is one. -/
theorem significand?_sound {text whole fraction rest : Bytes}
    (h : Scan.significand? text = some (whole, fraction, rest)) :
    ∃ significand, Significand significand whole fraction ∧ significand ++ rest = text := by
  cases hsplit : Scan.splitDigits text with
  | mk digits behind =>
    obtain ⟨hall, rfl⟩ := splitDigits_sound hsplit
    -- By whether a point follows the first digits, as the scanner does.
    by_cases hpoint : ∃ text', behind = 46 :: text'
    · obtain ⟨text', rfl⟩ := hpoint
      rw [significand?_of_point hsplit] at h
      cases hsplit' : Scan.splitDigits text' with
      | mk digits' behind' =>
        obtain ⟨hall', rfl⟩ := splitDigits_sound hsplit'
        rw [hsplit'] at h
        split at h
        next => exact nomatch h
        next hne =>
          obtain ⟨rfl, rfl, rfl⟩ : digits = whole ∧ digits' = fraction ∧ behind' = rest := by
            simpa using h
          -- Without digits before the point, there must be some behind it.
          by_cases hwhole : digits = []
          · have hfraction : digits' ≠ [] := by simpa [hwhole] using hne
            rw [hwhole]
            exact ⟨_, .fraction ⟨hfraction, hall'⟩, rfl⟩
          · exact ⟨_, .pointed ⟨hwhole, hall⟩ hall', by rw [List.append_assoc]; rfl⟩
    · rw [significand?_of_no_point hsplit fun text' htext' => hpoint ⟨text', htext'⟩] at h
      split at h
      next => exact nomatch h
      next hne =>
        cases h
        exact ⟨_, .whole ⟨by simpa using hne, hall⟩, rfl⟩

/-! ## Exponents -/

/-- The digits of an exponent are taken, with those that follow. -/
theorem integer?_append {sign digits : Bytes} {negative : Bool} (hsign : Sign sign negative)
    (hdigits : Digits digits) (rest : Bytes) :
    Scan.integer? (sign ++ (digits ++ rest)) =
      some (⟨negative, digits ++ (Scan.splitDigits rest).1⟩, (Scan.splitDigits rest).2) := by
  rw [Scan.integer?, hsign.scan (hdigits.unsigned rest)]
  simp only [splitDigits_append_of_all hdigits.all]
  exact if_neg (by simp [hdigits.ne_nil])

/-- What the scanner takes behind the mark of an exponent is a sign and digits. -/
theorem integer?_sound {text rest : Bytes} {written : Scan.IntegerText}
    (h : Scan.integer? text = some (written, rest)) :
    ∃ sign, Sign sign written.negative ∧ Digits written.digits ∧
      sign ++ (written.digits ++ rest) = text := by
  obtain ⟨sign, hsign, happend⟩ := sign_sound text
  simp only [Scan.integer?] at h
  -- Without digits nothing is taken, not even the sign.
  split at h
  next => exact nomatch h
  next hne =>
    cases h
    refine ⟨sign, hsign, ⟨by simpa using hne, fun d => Scan.isDigit_of_mem_splitDigits⟩, ?_⟩
    rw [Scan.splitDigits_append, happend]

/-- An exponent that is written takes all digits that follow it. -/
theorem exponent_append {mark : Char8} {sign digits : Bytes} {negative : Bool}
    (hmark : IsMark mark) (hsign : Sign sign negative) (hdigits : Digits digits) (rest : Bytes) :
    Scan.exponent (mark :: (sign ++ digits) ++ rest) =
      (if negative then -(Numeral.value (digits ++ (Scan.splitDigits rest).1) : Int)
        else Numeral.value (digits ++ (Scan.splitDigits rest).1), (Scan.splitDigits rest).2) := by
  rw [List.cons_append, List.append_assoc, Scan.exponent, if_pos hmark,
    integer?_append hsign hdigits]

/-- What the scanner takes for an exponent is one; if it takes nothing, the exponent is absent. -/
theorem exponent_sound (text : Bytes) :
    ∃ exponent, Exponent exponent (Scan.exponent text).1 ∧
      exponent ++ (Scan.exponent text).2 = text := by
  have habsent : ∃ exponent, Exponent exponent 0 ∧ exponent ++ text = text := ⟨[], .absent, rfl⟩
  -- No byte, no mark, no digits behind the mark: in each of these cases nothing is taken.
  unfold Scan.exponent
  split
  next => exact habsent
  next mark signed =>
    split
    next hmark =>
      split
      next written rest hinteger =>
        obtain ⟨sign, hsign, hdigits, happend⟩ := integer?_sound hinteger
        exact ⟨_, .written hmark hsign hdigits, by rw [← happend]; simp⟩
      next => exact habsent
    next => exact habsent

/-- What is left behind an exponent is less than the text, and all of it without one. -/
theorem exponent_suffix (text : Bytes) : (Scan.exponent text).2 <:+ text := by
  obtain ⟨exponent, -, happend⟩ := exponent_sound text
  exact ⟨exponent, happend⟩

/-! ## Numbers -/

/-- A word with its sign is read as the value of the word. -/
theorem float?_word {sign word : Bytes} {negative : Bool} {value : Scan.FloatText}
    (hsign : Sign sign negative) (hword : Word word value) (rest : Bytes) :
    ∃ rest', Scan.float? (sign ++ (word ++ rest)) = some (negative, value, rest') ∧
      rest' <:+ rest := by
  obtain ⟨rest', hspecial, hsuffix⟩ := special?_append hword rest
  refine ⟨rest', ?_, hsuffix⟩
  simp only [Scan.float?, hsign.scan (hword.unsigned rest), hspecial]

/-- What the scanner makes of a significand and an exponent decides what it makes of a number. -/
theorem float?_decimal {sign significand whole fraction behind whole' fraction' rest : Bytes}
    {negative : Bool} (hsign : Sign sign negative)
    (hsignificand : Significand significand whole fraction)
    (hscan : Scan.significand? (significand ++ behind) = some (whole', fraction', rest)) :
    Scan.float? (sign ++ (significand ++ behind)) =
      some (negative, .decimal (whole' ++ fraction') ((Scan.exponent rest).1 - fraction'.length),
        (Scan.exponent rest).2) := by
  -- A significand is not mistaken for a word.
  have hspecial : Scan.special? (significand ++ behind) = none := by
    obtain ⟨c, tail, hc, hdigit⟩ := hsignificand.head behind
    rw [hc]
    exact special?_of_head hdigit
  simp only [Scan.float?, hsign.scan (hsignificand.unsigned behind), hspecial, hscan]

/-- The mark of an exponent ends a significand. -/
theorem significand?_append_mark {significand whole fraction rest : Bytes} {mark : Char8}
    (h : Significand significand whole fraction) (hmark : IsMark mark) :
    Scan.significand? (significand ++ mark :: rest) = some (whole, fraction, mark :: rest) := by
  apply significand?_append_of_stop h
  rintro c tail ⟨⟩
  rcases hmark with rfl | rfl <;> decide

/-- A text that begins with a number is cut behind it or later. -/
theorem float?_append {number : Bytes} (h : IsNumber number) (rest : Bytes) :
    ∃ negative value rest', Scan.float? (number ++ rest) = some (negative, value, rest') ∧
      rest' <:+ rest := by
  obtain ⟨negative, value, h⟩ := h
  cases h with
  | word hsign hword =>
    obtain ⟨rest', hscan, hsuffix⟩ := float?_word hsign hword rest
    exact ⟨_, _, rest', by rw [List.append_assoc, hscan], hsuffix⟩
  | decimal hsign hsignificand hexponent =>
    rw [List.append_assoc, List.append_assoc]
    cases hexponent with
    | absent =>
      -- The text may go on with more digits, a point, or an exponent.
      obtain ⟨whole', fraction', rest', hscan, hsuffix⟩ := significand?_append hsignificand rest
      exact ⟨_, _, _, float?_decimal hsign hsignificand hscan,
        (exponent_suffix rest').trans hsuffix⟩
    | written hmark hsign' hdigits =>
      -- The mark ends the significand, so only digits of the exponent can be added.
      have hexponent := exponent_append hmark hsign' hdigits rest
      rw [List.cons_append] at hexponent ⊢
      rw [float?_decimal hsign hsignificand (significand?_append_mark hsignificand hmark),
        hexponent]
      exact ⟨_, _, _, rfl, splitDigits_suffix rest⟩

/-- A number is scanned as what it stands for, and nothing is left of it. -/
theorem Number.scan {number : Bytes} {negative : Bool} {value : Scan.FloatText}
    (h : Number number negative value) : Scan.float? number = some (negative, value, []) := by
  -- A number alone has nothing behind it, so that what is left is the end of nothing.
  cases h with
  | word hsign hword =>
    obtain ⟨rest', hscan, hsuffix⟩ := float?_word hsign hword []
    rw [List.suffix_nil.1 hsuffix, List.append_nil] at hscan
    exact hscan
  | decimal hsign hsignificand hexponent =>
    cases hexponent with
    | absent =>
      -- Nothing follows the significand, so neither a digit nor a point does.
      have hend : ∀ c tail, [] = c :: tail → Char8.isDigit c = false ∧ c ≠ 46 :=
        fun _ _ hc => nomatch hc
      exact float?_decimal hsign hsignificand (significand?_append_of_stop hsignificand hend)
    | written hmark hsign' hdigits =>
      have hexponent := exponent_append hmark hsign' hdigits []
      rw [List.append_nil] at hexponent
      rw [float?_decimal hsign hsignificand (significand?_append_mark hsignificand hmark),
        hexponent]
      simp [Scan.splitDigits]

/-- What the scanner takes for a number is one. -/
theorem float?_sound {text rest : Bytes} {negative : Bool} {value : Scan.FloatText}
    (h : Scan.float? text = some (negative, value, rest)) :
    ∃ number, Number number negative value ∧ number ++ rest = text := by
  obtain ⟨sign, hsign, happend⟩ := sign_sound text
  -- A word is tried before a significand, so the two cases are those of `Scan.special?`.
  simp only [Scan.float?] at h
  split at h
  next value' rest' hspecial =>
    obtain ⟨rfl, rfl, rfl⟩ : (Scan.sign text).1 = negative ∧ value' = value ∧ rest' = rest := by
      simpa using h
    obtain ⟨word, hword, happend'⟩ := special?_sound hspecial
    exact ⟨_, .word hsign hword, by rw [List.append_assoc, happend', happend]⟩
  next =>
    split at h
    next whole fraction behind hsignificand =>
      obtain ⟨exponent, hexponent, happend''⟩ := exponent_sound behind
      obtain ⟨significand, hsignificand, happend'⟩ := significand?_sound hsignificand
      obtain ⟨rfl, rfl, rfl⟩ : (Scan.sign text).1 = negative ∧
          .decimal (whole ++ fraction) ((Scan.exponent behind).1 - fraction.length) = value ∧
          (Scan.exponent behind).2 = rest := by
        simpa using h
      refine ⟨_, .decimal hsign hsignificand hexponent, ?_⟩
      rw [List.append_assoc, List.append_assoc, happend'', happend', happend]
    next => exact nomatch h

/-- A text stands for one number at most. -/
theorem Number.unique {number : Bytes} {negative negative' : Bool} {value value' : Scan.FloatText}
    (h : Number number negative value) (h' : Number number negative' value') :
    negative = negative' ∧ value = value' := by
  have hscan := h.scan.symm.trans h'.scan
  simpa using hscan

/-! ## The longest number -/

/-- The scanner finds nothing exactly if no beginning of the text is a number. -/
theorem float?_eq_none_iff {text : Bytes} :
    Scan.float? text = none ↔ ∀ p, p <+: text → ¬IsNumber p := by
  constructor
  -- A number at the beginning is found, perhaps with more digits than it has itself.
  · rintro h p ⟨rest, rfl⟩ hnumber
    obtain ⟨negative, value, rest', hscan, -⟩ := float?_append hnumber rest
    rw [h] at hscan
    exact nomatch hscan
  · intro h
    cases hscan : Scan.float? text with
    | none => rfl
    | some result =>
      obtain ⟨negative, value, rest⟩ := result
      obtain ⟨number, hnumber, happend⟩ := float?_sound hscan
      exact absurd ⟨negative, value, hnumber⟩ (h number ⟨rest, happend⟩)

/-- What the scanner takes is the longest number at the beginning of the text. -/
theorem isLongest_of_float? {number rest : Bytes} {negative : Bool} {value : Scan.FloatText}
    (h : Scan.float? (number ++ rest) = some (negative, value, rest)) :
    IsLongest number (number ++ rest) ∧ Number number negative value := by
  obtain ⟨number', hnumber, happend⟩ := float?_sound h
  obtain rfl := List.append_cancel_right happend
  refine ⟨⟨List.prefix_append _ _, ⟨negative, value, hnumber⟩, ?_⟩, hnumber⟩
  rintro p ⟨rest', hp⟩ hpnumber
  obtain ⟨negative', value', rest'', hscan, hsuffix⟩ := float?_append hpnumber rest'
  rw [hp, h] at hscan
  obtain ⟨-, -, rfl⟩ : negative = negative' ∧ value = value' ∧ rest = rest'' := by
    simpa using hscan
  -- What is left behind `p` includes what the scanner leaves.
  have hlength := hsuffix.length_le
  have hsum := congrArg List.length hp
  simp only [List.length_append] at hsum
  omega

namespace IsLongest

variable {number number' text : Bytes}

/-- A text has at most one longest number at its beginning. -/
theorem unique (h : IsLongest number text) (h' : IsLongest number' text) : number = number' := by
  have hle := h.longest number' h'.begins h'.isNumber
  have hle' := h'.longest number h.begins h.isNumber
  exact (List.prefix_of_prefix_length_le h.begins h'.begins hle').eq_of_length (by omega)

/-- The scanner finds the longest number. -/
theorem float?_eq (h : IsLongest number text) {negative : Bool} {value : Scan.FloatText}
    (hnumber : Number number negative value) :
    Scan.float? text = some (negative, value, text.drop number.length) := by
  cases hscan : Scan.float? text with
  | none => exact absurd h.isNumber (float?_eq_none_iff.1 hscan number h.begins)
  | some result =>
    obtain ⟨negative', value', rest⟩ := result
    obtain ⟨number', -, rfl⟩ := float?_sound hscan
    -- What is found is longest as well, and there is only one such number, with one value.
    obtain ⟨hlongest, hnumber'⟩ := isLongest_of_float? hscan
    obtain rfl := h.unique hlongest
    obtain ⟨rfl, rfl⟩ := hnumber.unique hnumber'
    rw [List.drop_left]

end IsLongest

end FloatSyntax

end ValueText
