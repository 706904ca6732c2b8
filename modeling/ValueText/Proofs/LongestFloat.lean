import ValueText.Proofs.FloatScanning
import ValueText.Proofs.Utf8RoundTrip

/-!
# Reading a floating-point number takes the longest one

The reader that works in machine steps finds the end of a number, decodes what it found as a
string, and converts the string.  What it found is a number by the grammar, so decoding and
converting do not refuse it, and the judgement on its bytes is the judgement on its digits.  Thus
the machine steps yield what `readFloat` yields, and that depends on the longest number alone.

## Key results

- `FloatSyntax.Number.decode?`: decoding does not refuse what a number consists of
- `FloatSyntax.Number.ofString?`: converting does not refuse a number
- `Stepwise.readFloat64_eq`: the machine steps do not trap and yield the same as `readFloat`
- `readFloat_longest`: what is read is the longest number
-/

namespace ValueText

namespace FloatSyntax

/-! ## The bytes of a number -/

/-- A byte of a number is visible ASCII, so neither a blank nor part of a longer character. -/
def IsVisible (c : Char8) : Prop := 32 < c.toNat ∧ c.toNat < 128

instance : DecidablePred IsVisible := fun _ => inferInstanceAs (Decidable (_ ∧ _))

theorem isVisible_of_isDigit {c : Char8} (h : Char8.isDigit c = true) : IsVisible c := by
  rw [isDigit_iff] at h
  exact ⟨by omega, by omega⟩

/-- Upper-case letters are visible as well. -/
theorem isVisible_of_toLower {c : Char8} (h : IsVisible (Char8.toLower c)) : IsVisible c := by
  rw [Char8.toLower] at h
  split at h
  next hupper =>
    have hupper : 65 ≤ c.toNat ∧ c.toNat ≤ 90 := by
      simpa [UInt8.le_iff_toNat_le] using hupper
    exact ⟨by omega, by omega⟩
  next => exact h

theorem Sign.isVisible {sign : Bytes} {negative : Bool} (h : Sign sign negative) :
    ∀ c ∈ sign, IsVisible c := by
  cases h <;> decide +kernel

/-- A word is visible, in letters of either case. -/
theorem Word.isVisible {word : Bytes} {value : Scan.FloatText} (h : Word word value) :
    ∀ c ∈ word, IsVisible c := by
  -- Going over to small letters hides no byte, so it suffices to look at the words.
  have hall {letters : Bytes} (hlower : word.map Char8.toLower = letters)
      (hletters : ∀ c ∈ letters, IsVisible c) : ∀ c ∈ word, IsVisible c := by
    intro c hc
    apply isVisible_of_toLower
    apply hletters
    rw [← hlower]
    exact List.mem_map_of_mem hc
  cases h with
  | infinity h => exact hall h (by decide +kernel)
  | inf h => exact hall h (by decide +kernel)
  | nan h => exact hall h (by decide +kernel)

/-- A significand consists of digits and the point. -/
theorem Significand.mem {significand whole fraction : Bytes}
    (h : Significand significand whole fraction) :
    ∀ c ∈ significand, Char8.isDigit c = true ∨ c = 46 := by
  intro c hc
  -- Each of the three forms is put together of digits and at most one point.
  cases h with
  | whole hwhole => exact .inl (hwhole.all c hc)
  | pointed hwhole hfraction =>
    rcases List.mem_append.1 hc with hc | hc
    · exact .inl (hwhole.all c hc)
    · rcases List.mem_cons.1 hc with rfl | hc
      · exact .inr rfl
      · exact .inl (hfraction c hc)
  | fraction hfraction =>
    rcases List.mem_cons.1 hc with rfl | hc
    · exact .inr rfl
    · exact .inl (hfraction.all c hc)

theorem Significand.isVisible {significand whole fraction : Bytes}
    (h : Significand significand whole fraction) : ∀ c ∈ significand, IsVisible c := by
  intro c hc
  rcases h.mem c hc with hdigit | rfl
  · exact isVisible_of_isDigit hdigit
  · exact ⟨by decide, by decide⟩

/-- An exponent is visible: its mark, its sign and its digits. -/
theorem Exponent.isVisible {exponent : Bytes} {power : Int} (h : Exponent exponent power) :
    ∀ c ∈ exponent, IsVisible c := by
  intro c hc
  cases h with
  | absent => exact nomatch hc
  | written hmark hsign hdigits =>
    -- A byte of the exponent is its mark, or stands in its sign or its digits.
    rcases List.mem_cons.1 hc with rfl | hc
    · rcases hmark with rfl | rfl <;> exact ⟨by decide, by decide⟩
    · rcases List.mem_append.1 hc with hc | hc
      · exact hsign.isVisible c hc
      · exact isVisible_of_isDigit (hdigits.all c hc)

/-- A number is visible, so no blank and no byte of a longer character stands in it. -/
theorem Number.isVisible {number : Bytes} {negative : Bool} {value : Scan.FloatText}
    (h : Number number negative value) : ∀ c ∈ number, IsVisible c := by
  intro c hc
  -- A number is put together of visible parts.
  cases h with
  | word hsign hword =>
    rcases List.mem_append.1 hc with hc | hc
    · exact hsign.isVisible c hc
    · exact hword.isVisible c hc
  | decimal hsign hsignificand hexponent =>
    rcases List.mem_append.1 hc with hc | hc
    · exact hsign.isVisible c hc
    · rcases List.mem_append.1 hc with hc | hc
      · exact hsignificand.isVisible c hc
      · exact hexponent.isVisible c hc

/-- The bytes of a number decode to a text, as a conversion of that text asks for. -/
theorem Number.decode? {number : Bytes} {negative : Bool} {value : Scan.FloatText}
    (h : Number number negative value) :
    ∃ s, Utf8.decode? number = some s ∧ Bytes.ofString s = number :=
  Utf8.decode?_of_ascii fun c hc => UInt8.lt_iff_toNat_lt.2 (h.isVisible c hc).2

/-- There are no blanks to be skipped before a number. -/
theorem Number.skipBlanks {number : Bytes} {negative : Bool} {value : Scan.FloatText}
    (h : Number number negative value) : Scan.skipBlanks number = number := by
  cases number with
  | nil => rfl
  | cons c tail =>
    have hvisible := (h.isVisible c List.mem_cons_self).1
    -- All blanks are below the visible bytes.
    have hblank : ¬Char8.isBlank c = true := by
      simp only [Char8.isBlank, Bool.or_eq_true, beq_iff_eq]
      rintro ((((rfl | rfl) | rfl) | rfl) | rfl) <;> exact absurd hvisible (by decide)
    rw [Scan.skipBlanks, List.dropWhile_cons_of_neg hblank]

/-- A number is the longest one at its own beginning. -/
theorem Number.isLongest {number : Bytes} {negative : Bool} {value : Scan.FloatText}
    (h : Number number negative value) : IsLongest number (Scan.skipBlanks number) := by
  rw [h.skipBlanks]
  exact ⟨List.prefix_refl number, ⟨negative, value, h⟩, fun p hp _ => hp.length_le⟩

/-! ## Converting a number as a whole -/

/-- Neither a digit nor the point is mistaken for the mark of an exponent. -/
theorem isMark_eq_false {c : Char8} (h : Char8.isDigit c = true ∨ c = 46) :
    WholeText.isMark c = false := by
  rw [Bool.eq_false_iff]
  intro hmark
  have hmark : c = 101 ∨ c = 69 := by simpa [WholeText.isMark] using hmark
  rcases hmark with rfl | rfl <;> exact absurd h (by decide)

/-- The first mark of an exponent is behind the sign and the significand. -/
theorem longestRun_significand {sign significand whole fraction exponent : Bytes} {negative : Bool}
    {power : Int} (hsign : Sign sign negative)
    (hsignificand : Significand significand whole fraction) (hexponent : Exponent exponent power) :
    LongestRun (!WholeText.isMark ·) (sign ++ significand) exponent where
  all c hc := by
    rcases List.mem_append.1 hc with hc | hc
    · cases hsign with
      | absent => exact nomatch hc
      | plus => rw [List.mem_singleton.1 hc]; rfl
      | minus => rw [List.mem_singleton.1 hc]; rfl
    · rw [isMark_eq_false (hsignificand.mem c hc)]
      rfl
  -- Where an exponent is written, its mark is what stops the run.
  stops c hc := by
    cases hexponent with
    | absent => exact nomatch hc
    | written hmark =>
      obtain rfl := Option.some.inj hc
      rcases hmark with rfl | rfl <;> rfl

theorem ne_point_of_isDigit {c : Char8} (h : Char8.isDigit c = true) : (c != 46) = true := by
  rw [bne_iff_ne]
  rintro rfl
  exact absurd h (by decide)

/-- The first point is behind the digits before it. -/
theorem cut_significand {significand whole fraction : Bytes}
    (h : Significand significand whole fraction) :
    significand.takeWhile (· != 46) = whole ∧
      (significand.dropWhile (· != 46)).drop 1 = fraction := by
  -- By the form of the significand: the cut is its end, its point in the middle, or its first byte.
  cases h with
  | whole hwhole =>
    have hrun : LongestRun (· != 46) significand [] :=
      ⟨fun c hc => ne_point_of_isDigit (hwhole.all c hc), fun c hc => nomatch hc⟩
    have htake := hrun.takeWhile_append
    have hdrop := hrun.dropWhile_append
    rw [List.append_nil] at htake hdrop
    rw [htake, hdrop]
    exact ⟨rfl, rfl⟩
  | pointed hwhole =>
    have hrun : LongestRun (· != 46) whole (46 :: fraction) :=
      ⟨fun c hc => ne_point_of_isDigit (hwhole.all c hc), fun c hc => by cases hc; rfl⟩
    rw [hrun.takeWhile_append, hrun.dropWhile_append]
    exact ⟨rfl, rfl⟩
  | fraction => exact ⟨rfl, rfl⟩

/-- A significand has a digit before or behind the point, and nothing but digits there. -/
theorem Significand.digits {significand whole fraction : Bytes}
    (h : Significand significand whole fraction) : Digits (whole ++ fraction) := by
  -- In each form there is a digit on one of the sides of the point.
  cases h with
  | whole hwhole => rwa [List.append_nil]
  | pointed hwhole hfraction =>
    refine ⟨by simp [hwhole.ne_nil], fun d hd => ?_⟩
    rcases List.mem_append.1 hd with hd | hd
    · exact hwhole.all d hd
    · exact hfraction d hd
  | fraction hfraction => exact hfraction

theorem natural?_eq {digits : Bytes} (h : Digits digits) :
    WholeText.natural? digits = some (Numeral.value digits) := by
  have hall : digits.all Char8.isDigit = true := List.all_eq_true.2 h.all
  exact if_neg (by simp [hall, h.ne_nil])

/-- An exponent is converted as its power. -/
theorem Exponent.power? {exponent : Bytes} {power : Int} (h : Exponent exponent power) :
    WholeText.power? exponent = some power := by
  cases h with
  | absent => rfl
  | written hmark hsign hdigits =>
    -- The digits do not begin with a second sign.
    have hunsigned := hdigits.unsigned []
    rw [List.append_nil] at hunsigned
    rw [WholeText.power?, hsign.scan hunsigned]
    simp only [natural?_eq hdigits]
    rfl

/-- A significand with its exponent is converted as the decimal that they denote. -/
theorem decimal?_eq {significand whole fraction exponent : Bytes} {power : Int}
    (hsignificand : Significand significand whole fraction) (hexponent : Exponent exponent power) :
    WholeText.decimal? (significand ++ exponent) =
      some (.decimal (whole ++ fraction) (power - fraction.length)) := by
  -- The conversion cuts at the mark first and at the point then.
  have hrun := longestRun_significand .absent hsignificand hexponent
  rw [List.nil_append] at hrun
  have hdigits := hsignificand.digits
  have hall : (whole ++ fraction).all Char8.isDigit = true := List.all_eq_true.2 hdigits.all
  obtain ⟨hwhole, hfraction⟩ := cut_significand hsignificand
  simp only [WholeText.decimal?, hrun.takeWhile_append, hrun.dropWhile_append, hwhole, hfraction,
    hexponent.power?]
  exact if_neg (by simpa [hall] using hdigits.ne_nil)

/-- A word is converted as its value. -/
theorem Word.special? {word : Bytes} {value : Scan.FloatText} (h : Word word value) :
    WholeText.special? word = some value := by
  cases h with
  | infinity h => rw [WholeText.special?, h]; rfl
  | inf h => rw [WholeText.special?, h]; rfl
  | nan h => rw [WholeText.special?, h]; rfl

/-- A text that begins with a digit or with the point is no word. -/
theorem special?_of_significand {significand whole fraction : Bytes}
    (h : Significand significand whole fraction) (rest : Bytes) :
    WholeText.special? (significand ++ rest) = none := by
  obtain ⟨c, tail, hc, hdigit⟩ := h.head rest
  have hne {letter : Char8} {letters : Bytes} (hletter : IsWordHead letter) :
      ((c :: tail).map Char8.toLower != letter :: letters) = true := by
    rw [bne_iff_ne]
    intro hword
    have hhead := not_isWordHead hdigit
    rw [(List.cons.inj hword).1] at hhead
    exact hhead hletter
  -- It suffices to look at the first letters of the words.
  rw [WholeText.special?, hc, List.lookup_eq_none_iff]
  intro entry hentry
  simp only [Scan.specialWords, List.mem_cons, List.not_mem_nil, or_false] at hentry
  rcases hentry with rfl | rfl | rfl
  · exact hne (.inl rfl)
  · exact hne (.inl rfl)
  · exact hne (.inr rfl)

/-- A number is converted as what it stands for. -/
theorem Number.ofString? {number : Bytes} {negative : Bool} {value : Scan.FloatText}
    (h : Number number negative value) (f : FloatType) {s : String}
    (hs : Bytes.ofString s = number) :
    Binary.ofString? f s = some (Binary.ofFloatText f negative value) := by
  rw [Binary.ofString?, hs]
  -- The conversion takes the number apart at the same places as the grammar.
  cases h with
  | word hsign hword =>
    have hunsigned := hword.unsigned []
    rw [List.append_nil] at hunsigned
    rw [hsign.scan hunsigned]
    simp only [hword.special?]
    rfl
  | decimal hsign hsignificand hexponent =>
    rw [hsign.scan (hsignificand.unsigned _)]
    simp only [special?_of_significand hsignificand, decimal?_eq hsignificand hexponent]
    rfl

end FloatSyntax

/-! ## Judging a number -/

/-- Whether a number as it is written has left the range of its type, by the datum nearest to it:
    a decimal that became infinite, or one that became zero although it has another digit. -/
def Scan.FloatText.leavesRange {f : FloatType} (x : Binary f) : Scan.FloatText → Bool
  | .infinity => false
  | .nan => false
  | .decimal digits _ => x.isInfinite || x.isZero && digits.any (· != 48)

namespace FloatSyntax

/-- What is read is decided by the longest number behind the blanks. -/
theorem IsLongest.readFloat_eq {number text : Bytes} (h : IsLongest number (Scan.skipBlanks text))
    {negative : Bool} {value : Scan.FloatText} (hnumber : Number number negative value)
    (f : FloatType) :
    readFloat f text =
      if value.leavesRange (Binary.ofFloatText f negative value) then
        .error ⟨.outOfRange, .float f, Utf8.decodeReplacing text⟩
      else .ok (Binary.ofFloatText f negative value) := by
  simp only [readFloat, h.float?_eq hnumber]
  -- Only a decimal can leave the range; the words are judged to stay in it.
  cases value with
  | infinity => rfl
  | nan => rfl
  | decimal digits exponent =>
    simp only [Scan.FloatText.leavesRange, Binary.ofFloatText, Bool.or_eq_true]
    split
    next hinfinite => rw [if_pos (.inl hinfinite)]
    next hinfinite =>
      split
      next hzero => rw [if_pos (.inr hzero)]
      next hzero => rw [if_neg (not_or.2 ⟨hinfinite, hzero⟩)]

theorem readFloat_of_float?_eq_none {text : Bytes} (h : Scan.float? (Scan.skipBlanks text) = none)
    (f : FloatType) :
    readFloat f text = .error ⟨.noNumber, .float f, Utf8.decodeReplacing text⟩ := by
  simp only [readFloat, h]

end FloatSyntax

namespace Stepwise

open FloatSyntax

/-- Whatever its bytes are, a number can be looked at for a word without a trap. -/
theorem isSpecial_eq (number : Bytes) :
    isSpecial number = .ok (WholeText.special? (Scan.sign number).2).isSome := by
  rw [isSpecial, (at_signAt (At.zero number)).slice_eq]
  refine congrArg Except.ok (Bool.eq_iff_iff.2 ?_)
  rw [WholeText.special?, List.lookup_isSome_iff, List.any_eq_true]

/-- The bytes before the mark of the exponent are found without a trap, in any text. -/
theorem mantissa_eq (number : Bytes) :
    mantissa number = .ok (number.takeWhile (!WholeText.isMark ·)) := by
  rw [mantissa, slice_zero List.findIdx_le_length, List.takeWhile_eq_take_findIdx_not]
  simp only [Bool.not_not]

/-- A word with its sign is recognised. -/
theorem isSpecial_word {sign word : Bytes} {negative : Bool} {value : Scan.FloatText}
    (hsign : Sign sign negative) (hword : Word word value) :
    isSpecial (sign ++ word) = .ok true := by
  have hunsigned := hword.unsigned []
  rw [List.append_nil] at hunsigned
  rw [isSpecial_eq, hsign.scan hunsigned, hword.special?]
  rfl

/-- In the bytes before the exponent, the digits other than zero are those of the number. -/
theorem any_mantissa {sign significand whole fraction : Bytes} {negative : Bool}
    (hsign : Sign sign negative) (hsignificand : Significand significand whole fraction) :
    ((sign ++ significand).any fun c => 49 ≤ c && c ≤ 57) = (whole ++ fraction).any (· != 48) := by
  have hsign : (sign.any fun c => 49 ≤ c && c ≤ 57) = false := by cases hsign <;> rfl
  have hpoint : (significand.any fun c => 49 ≤ c && c ≤ 57) =
      ((whole ++ fraction).any fun c => 49 ≤ c && c ≤ 57) := by
    cases hsignificand with
    | whole => rw [List.append_nil]
    | pointed => rw [List.any_append, List.any_append, List.any_cons]; rfl
    | fraction => rw [List.any_cons]; rfl
  rw [List.any_append, hsign, Bool.false_or, hpoint, Bool.eq_iff_iff, List.any_eq_true,
    List.any_eq_true]
  -- A digit is other than zero exactly if its byte is above that of zero.
  refine exists_congr fun c => and_congr_right fun hc => ?_
  have hdigit := isDigit_iff.1 (hsignificand.digits.all c hc)
  simp only [Bool.and_eq_true, decide_eq_true_eq, UInt8.le_iff_toNat_le, bne_iff_ne, ne_eq,
    ← UInt8.toNat_inj, UInt8.reduceToNat]
  omega

/-- The bytes before the exponent are those of the sign and the significand. -/
theorem mantissa_decimal {sign significand whole fraction exponent : Bytes} {negative : Bool}
    {power : Int} (hsign : Sign sign negative)
    (hsignificand : Significand significand whole fraction) (hexponent : Exponent exponent power) :
    mantissa (sign ++ (significand ++ exponent)) = .ok (sign ++ significand) := by
  rw [mantissa_eq, ← List.append_assoc,
    (longestRun_significand hsign hsignificand hexponent).takeWhile_append]

/-- The judgement on the bytes is the judgement on the number. -/
theorem isOutOfRange_eq {number : Bytes} {negative : Bool} {value : Scan.FloatText}
    (h : Number number negative value) :
    isOutOfRange (.ofFloatText .f64 negative value) number =
      .ok (value.leavesRange (Binary.ofFloatText .f64 negative value)) := by
  cases h with
  | word hsign hword =>
    have hinfinite : (Binary.infinity .f64 negative).isInfinite = true := beq_self_eq_true _
    have hspecial := isSpecial_word hsign hword
    cases hword with
    | infinity =>
      rw [isOutOfRange, Binary.ofFloatText, if_pos hinfinite, hspecial]
      rfl
    | inf =>
      rw [isOutOfRange, Binary.ofFloatText, if_pos hinfinite, hspecial]
      rfl
    | nan => rfl
  -- An infinite value is out of range; so is zero, unless all its digits are zeros.
  | decimal hsign hsignificand hexponent =>
    rw [isOutOfRange, isSpecial_eq, hsign.scan (hsignificand.unsigned _),
      special?_of_significand hsignificand, mantissa_decimal hsign hsignificand hexponent]
    simp only [bind, Except.bind, any_mantissa hsign hsignificand, Scan.FloatText.leavesRange]
    split
    next hinfinite => rw [hinfinite]; rfl
    next hinfinite =>
      rw [Bool.not_eq_true] at hinfinite
      rw [hinfinite]
      split
      next hzero => rw [hzero]; rfl
      next hzero => rw [Bool.not_eq_true] at hzero; rw [hzero]; rfl

/-- The reader does not trap, and yields what `readFloat` yields. -/
theorem readFloat64_eq (text : Bytes) : readFloat64 text = .ok (readFloat .f64 text) := by
  have hstart : At text (countLeading Char8.isBlank text) (Scan.skipBlanks text) :=
    ⟨text.takeWhile Char8.isBlank, List.takeWhile_append_dropWhile, rfl⟩
  obtain ⟨found, hscan, hfound⟩ := scanFloat_eq (Scan.skipBlanks text)
  simp only [readFloat64, hstart.slice_eq, hscan, bind, Except.bind]
  -- The machine gives up where the scanner does; otherwise it has found the end of the same number.
  cases hfloat : Scan.float? (Scan.skipBlanks text) with
  | none =>
    rw [hfloat] at hfound
    cases hfound
    rw [readFloat_of_float?_eq_none hfloat]
    rfl
  | some result =>
    obtain ⟨negative, value, rest⟩ := result
    rw [hfloat] at hfound
    cases hfound with
    | some hlast =>
      obtain ⟨number, happend, rfl⟩ := hlast
      have hslice : slice text (countLeading Char8.isBlank text)
          (countLeading Char8.isBlank text + number.length) = .ok number := by
        have hslice := slice_append (text.takeWhile Char8.isBlank) number rest
        rwa [happend, Scan.skipBlanks, List.takeWhile_append_dropWhile] at hslice
      rw [← happend] at hfloat
      -- The second pass is over a number, so it neither traps nor fails to convert it.
      obtain ⟨hlongest, hnumber⟩ := isLongest_of_float? hfloat
      obtain ⟨literal, hdecode, hliteral⟩ := hnumber.decode?
      rw [happend] at hlongest
      simp only [hslice, hdecode, hnumber.ofString? .f64 hliteral, isOutOfRange_eq hnumber,
        hlongest.readFloat_eq hnumber .f64]
      split <;> rfl

end Stepwise

/-- The outcome of reading, without the text that an error carries. -/
def floatOutcome {f : FloatType} (r : Except NumberError (Binary f)) :
    Except NumberFault (Binary f) :=
  r.mapError NumberError.fault

namespace FloatSyntax

/-- There is no number exactly if none begins the text behind the blanks. -/
theorem floatOutcome_eq_noNumber_iff (f : FloatType) (text : Bytes) :
    floatOutcome (readFloat f text) = .error .noNumber ↔
      ∀ p, p <+: Scan.skipBlanks text → ¬IsNumber p := by
  rw [← float?_eq_none_iff]
  constructor
  -- Whatever the longest number is, its outcome is a value or out of range.
  · intro h
    cases hfloat : Scan.float? (Scan.skipBlanks text) with
    | none => rfl
    | some result =>
      obtain ⟨negative, value, rest⟩ := result
      obtain ⟨number, -, happend⟩ := float?_sound hfloat
      rw [← happend] at hfloat
      obtain ⟨hlongest, hnumber⟩ := isLongest_of_float? hfloat
      rw [happend] at hlongest
      rw [hlongest.readFloat_eq hnumber] at h
      split at h <;> exact nomatch h
  · intro h
    rw [readFloat_of_float?_eq_none h]
    rfl

/-- A text is read as its longest number alone would be. -/
theorem IsLongest.floatOutcome_eq {number text : Bytes}
    (h : IsLongest number (Scan.skipBlanks text)) (f : FloatType) :
    floatOutcome (readFloat f text) = floatOutcome (readFloat f number) := by
  obtain ⟨negative, value, hnumber⟩ := h.isNumber
  rw [h.readFloat_eq hnumber, hnumber.isLongest.readFloat_eq hnumber]
  split <;> rfl

/-- The machine steps end where the longest number does. -/
theorem scanFloat_longest (bytes : Bytes) :
    ∃ found, Stepwise.scanFloat bytes = .ok found ∧
      (found = none ↔ ∀ p, p <+: bytes → ¬IsNumber p) ∧
      ∀ n, found = some n ↔ n ≤ bytes.length ∧ IsLongest (bytes.take n) bytes := by
  obtain ⟨found, hscan, hfound⟩ := Stepwise.scanFloat_eq bytes
  refine ⟨found, hscan, ?_⟩
  rw [← float?_eq_none_iff]
  -- What the scanner finds is longest, and if it finds nothing then there is nothing.
  cases hfloat : Scan.float? bytes with
  | none =>
    rw [hfloat] at hfound
    cases hfound
    refine ⟨by simp, fun n => ⟨(nomatch ·), fun ⟨_, hlongest⟩ => ?_⟩⟩
    exact absurd hlongest.isNumber (float?_eq_none_iff.1 hfloat _ hlongest.begins)
  | some result =>
    obtain ⟨negative, value, rest⟩ := result
    rw [hfloat] at hfound
    cases hfound with
    | some hlast =>
      obtain ⟨number, rfl, rfl⟩ := hlast
      obtain ⟨hlongest, -⟩ := isLongest_of_float? hfloat
      refine ⟨by simp, fun n => ⟨?_, fun ⟨hn, hlongest'⟩ => ?_⟩⟩
      · rintro ⟨⟩
        rw [List.take_left, List.length_append]
        exact ⟨Nat.le_add_right _ _, hlongest⟩
      · -- There is one longest number, so that its length is the end that was found.
        have hlength := congrArg List.length (hlongest.unique hlongest')
        rw [List.length_take, Nat.min_eq_left hn] at hlength
        rw [hlength]

end FloatSyntax

/-- Decoding a number and converting it as a whole do not refuse it. -/
theorem FloatSyntax.IsNumber.converts {number : Bytes} (h : IsNumber number) (f : FloatType) :
    ∃ s x, Utf8.decode? number = some s ∧ Binary.ofString? f s = some x := by
  obtain ⟨negative, value, hnumber⟩ := h
  obtain ⟨s, hdecode, hs⟩ := hnumber.decode?
  exact ⟨s, _, hdecode, hnumber.ofString? f hs⟩

open FloatSyntax in
/-- Reading a floating-point number takes the longest one that begins the text, by the grammar of
    `FloatSyntax`.  The first pass finds its end, or that there is none; no slice of it or of the
    second look at the number misses the text, and a number is not refused by what follows.  There
    is no number exactly if none begins the text behind the blanks; otherwise the outcome is that
    of the longest number alone, whatever stands before and behind it. -/
theorem readFloat_longest :
    (∀ bytes, ∃ found, Stepwise.scanFloat bytes = .ok found ∧
      (found = none ↔ ∀ p, p <+: bytes → ¬IsNumber p) ∧
      ∀ n, found = some n ↔ n ≤ bytes.length ∧ IsLongest (bytes.take n) bytes) ∧
    (∀ number, (∃ special, Stepwise.isSpecial number = .ok special) ∧
      ∃ bytes, Stepwise.mantissa number = .ok bytes) ∧
    (∀ number, IsNumber number →
      ∃ s x, Utf8.decode? number = some s ∧ Binary.ofString? .f64 s = some x) ∧
    ∀ text, Stepwise.readFloat64 text = .ok (readFloat .f64 text) ∧
      (floatOutcome (readFloat .f64 text) = .error .noNumber ↔
        ∀ p, p <+: text.dropWhile Char8.isBlank → ¬IsNumber p) ∧
      ∀ number, IsLongest number (text.dropWhile Char8.isBlank) →
        floatOutcome (readFloat .f64 text) = floatOutcome (readFloat .f64 number) := by
  refine ⟨scanFloat_longest, fun number => ⟨⟨_, Stepwise.isSpecial_eq number⟩, _,
    Stepwise.mantissa_eq number⟩, fun number h => h.converts .f64, fun text =>
    ⟨Stepwise.readFloat64_eq text, floatOutcome_eq_noNumber_iff .f64 text, fun number h => ?_⟩⟩
  exact h.floatOutcome_eq .f64

open FloatSyntax in
/-- An exponent without a digit is not a part of the number, and makes no difference. -/
theorem readFloat_longest_incomplete_exponent :
    IsLongest (Bytes.ofString "+.5") ((Bytes.ofString "\t+.5e-x").dropWhile Char8.isBlank) ∧
      floatOutcome (readFloat .f64 (Bytes.ofString "\t+.5e-x")) =
        floatOutcome (readFloat .f64 (Bytes.ofString "+.5")) := by
  -- The scanner stops in front of the mark, since no digit follows the sign behind it.
  have hscan : Scan.float? (Bytes.ofString "+.5" ++ Bytes.ofString "e-x") =
      some (false, .decimal (Bytes.ofString "5") (-1), Bytes.ofString "e-x") := by decide +kernel
  have hbehind : (Bytes.ofString "\t+.5e-x").dropWhile Char8.isBlank =
      Bytes.ofString "+.5" ++ Bytes.ofString "e-x" := by decide +kernel
  have hlongest := (isLongest_of_float? hscan).1
  rw [← hbehind] at hlongest
  obtain ⟨-, -, -, htext⟩ := readFloat_longest
  exact ⟨hlongest, (htext _).2.2 _ hlongest⟩

/-- A point, a mark or a sign that lacks its digit is not taken, and of a word that lacks letters
    the shorter one is. -/
example : (["5.e", "1e+", "+.e5", "-infinit"].map fun s =>
    (Stepwise.scanFloat (Bytes.ofString s)).toOption) =
      [some (some 2), some (some 1), some none, some (some 4)] := by
  decide +kernel

end ValueText
