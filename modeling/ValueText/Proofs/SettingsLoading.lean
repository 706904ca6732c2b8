import ValueText.Console.Settings
import Mathlib.Data.List.Forall2
import Mathlib.Data.List.TakeWhile

/-!
# Loading settings

Settings are loaded from two variables.  All other variables are ignored, and the two have nothing
to do with each other: together they are accepted exactly if each of them is accepted when it is
the only one, and each then decides its own field.  If one of them is rejected there are no
settings at all, and the error is the one that the rejected variable alone would have caused; of
two rejected variables, the terminator is the one named.

A value may be spelled with other letter cases and with blanks around it.  Its spelling is seen
only in the error that reports it.

## Key results

- `fold_eq_of_respelled`: spellings of a value count the same
- `ofVariables_eq_ok_iff`, `ofVariables_eq_error_iff`: what comes of two variables, in terms of each
- `ofVariables_all_or_nothing`: what comes of a lookup, in terms of lookups with one variable
-/

namespace ValueText

/-! ## Spellings -/

namespace Text

/-- The character code of a letter in lower case is 32 above its code in upper case. -/
theorem toNat_toLower {c : Char} (h : 65 ≤ c.toNat ∧ c.toNat ≤ 90) :
    c.toLower.toNat = c.toNat + 32 := by
  have hupper : c.val ≥ 'A'.val ∧ c.val ≤ 'Z'.val := h
  have hlast : c.val.toNat ≤ 90 := h.2
  unfold Char.toLower
  rw [dif_pos hupper]
  show (c.val + 32).toNat = c.val.toNat + 32
  -- The sum is far below the end of the word.
  rw [UInt32.toNat_add]
  simp
  omega

theorem toLower_eq_self {c : Char} (h : ¬(65 ≤ c.toNat ∧ c.toNat ≤ 90)) : c.toLower = c :=
  dif_neg h

/-- The small letter of a capital is the small letter of the letter. -/
theorem toLower_toUpper (c : Char) : c.toUpper.toLower = c.toLower := by
  by_cases h : 97 ≤ c.toNat ∧ c.toNat ≤ 122
  · -- Going up by the word `-32` and down by 32 again stays at the lower-case letter.
    have hlower : 'a'.val ≤ c.val ∧ c.val ≤ 'z'.val := h
    have hupper : c.toUpper.toNat + 32 = c.toNat := by
      have hrange : 97 ≤ c.val.toNat ∧ c.val.toNat ≤ 122 := h
      unfold Char.toUpper
      rw [dif_pos hlower]
      show (c.val + 4294967264).toNat + 32 = c.val.toNat
      rw [UInt32.toNat_add]
      simp
      omega
    rw [toLower_eq_self (c := c) (by omega)]
    apply Char.toNat_inj.1
    rw [toNat_toLower (by omega), hupper]
  · have hlower : ¬('a'.val ≤ c.val ∧ c.val ≤ 'z'.val) := h
    unfold Char.toUpper
    rw [dif_neg hlower]

/-- No letter is blank, in either case. -/
theorem isBlank_toLower (c : Char) : isBlank c.toLower = isBlank c := by
  by_cases h : 65 ≤ c.toNat ∧ c.toNat ≤ 90
  · have hlower := toNat_toLower h
    simp only [isBlank, blankRanges, List.any_cons, List.any_nil, hlower]
    grind
  · rw [toLower_eq_self h]

/-- Trimming goes along with changing the letter case, which makes no blank and hides none. -/
theorem trim_map_toLower (cs : List Char) :
    trim (cs.map Char.toLower) = (trim cs).map Char.toLower := by
  have hblank : isBlank ∘ Char.toLower = isBlank := funext isBlank_toLower
  unfold trim
  rw [List.dropWhile_map, ← List.map_reverse, List.dropWhile_map, ← List.map_reverse, hblank]

/-- Blanks at the end make no difference to the trimmed text. -/
theorem trim_append_blanks {cs blanks : List Char} (h : ∀ c ∈ blanks, isBlank c) :
    trim (cs ++ blanks) = trim cs := by
  unfold trim
  rw [List.dropWhile_append]
  split
  next hempty =>
    -- Blanks behind nothing but blanks go with them from the front.
    have hnil : cs.dropWhile isBlank = [] := List.isEmpty_iff.1 hempty
    have hblanks : blanks.dropWhile isBlank = [] := List.dropWhile_eq_nil_iff.2 h
    rw [hnil, hblanks]
  next =>
    have hreverse : ∀ c ∈ blanks.reverse, isBlank c := by simpa using h
    rw [List.reverse_append, List.dropWhile_append_of_pos hreverse]

theorem trim_blanks_append {cs blanks : List Char} (h : ∀ c ∈ blanks, isBlank c) :
    trim (blanks ++ cs) = trim cs := by
  unfold trim
  rw [List.dropWhile_append_of_pos h]

/-- The same letter in either case, or the same character. -/
def SameLetter (c d : Char) : Prop := d = c ∨ d = c.toLower ∨ d = c.toUpper

/-- Two cases of a letter have the same small letter. -/
theorem SameLetter.toLower_eq {c d : Char} (h : SameLetter c d) : d.toLower = c.toLower := by
  rcases h with rfl | rfl | rfl
  · rfl
  · by_cases hupper : 65 ≤ c.toNat ∧ c.toNat ≤ 90
    · have hlower := toNat_toLower hupper
      exact toLower_eq_self (by omega)
    · rw [toLower_eq_self hupper, toLower_eq_self hupper]
  · exact toLower_toUpper c

/-- Two spellings that differ in the letter case have the same small letters. -/
theorem map_toLower_eq {cs ds : List Char} (h : List.Forall₂ SameLetter cs ds) :
    ds.map Char.toLower = cs.map Char.toLower := by
  induction h with
  | nil => rfl
  | cons hletter _ ih => rw [List.map_cons, List.map_cons, hletter.toLower_eq, ih]

/-- A second string that spells the first one in other letter cases and with more blanks around
    it. -/
inductive Respelled : String → String → Prop
  | letters {v w : String} (h : List.Forall₂ SameLetter v.toList w.toList) : Respelled v w
  | blanks {v before after : String} (hbefore : ∀ c ∈ before.toList, isBlank c)
    (hafter : ∀ c ∈ after.toList, isBlank c) : Respelled v (before ++ v ++ after)
  | trans {u v w : String} (h : Respelled u v) (h' : Respelled v w) : Respelled u w

end Text

namespace Settings

/-- All spellings of a value count the same. -/
theorem fold_eq_of_respelled {v w : String} (h : Text.Respelled v w) : fold w = fold v := by
  -- By the ways in which a value is respelled: other letters, more blanks, one way after the other.
  induction h with
  | letters h =>
    have hlower := Text.map_toLower_eq h
    rw [fold, fold, ← Text.trim_map_toLower, hlower, Text.trim_map_toLower]
  | blanks hbefore hafter =>
    rw [fold, String.toList_append, String.toList_append, Text.trim_append_blanks hafter,
      Text.trim_blanks_append hbefore, fold]
  | trans _ _ ih ih' => rw [ih', ih]

/-! ## One variable -/

variable {α : Type} {read : String → Except SettingError α} {absent x : α} {value? : Option String}
  {e : SettingError} {value : String}

/-- A variable is refused only if it has a value. -/
theorem readOr_eq_error_iff :
    readOr read absent value? = .error e ↔ ∃ v, value? = some v ∧ read v = .error e := by
  cases value? <;> simp [readOr]

/-- A variable is accepted with the value that is read from it, or with the default without one. -/
theorem readOr_eq_ok_iff :
    readOr read absent value? = .ok x ↔
      (value? = none → x = absent) ∧ ∀ v, value? = some v → read v = .ok x := by
  cases value? <;> simp [readOr, eq_comm]

/-- A rejected terminator is reported as it was given. -/
theorem readTerminator_eq_error (h : readTerminator value = .error e) :
    e = ⟨terminatorKey, value, "lf, crlf"⟩ := by
  unfold readTerminator at h
  split at h
  next => exact nomatch h
  next => exact (Except.error.inj h).symm

/-- A rejected value for the flushing is reported as it was given. -/
theorem readFlush_eq_error (h : readFlush value = .error e) :
    e = ⟨flushKey, value, "1, 0, true, false"⟩ := by
  unfold readFlush at h
  split at h
  next => exact nomatch h
  next => exact (Except.error.inj h).symm

/-! ## Two variables -/

variable {lookup lookup' : String → Option String} {s : Settings}

/-- Settings are loaded if both variables are accepted, each for its own field. -/
theorem ofVariables_eq_ok_iff :
    ofVariables lookup = .ok s ↔
      readOr readTerminator default.terminator (lookup terminatorKey) = .ok s.terminator ∧
      readOr readFlush default.flushLines (lookup flushKey) = .ok s.flushLines := by
  -- By the outcome of the first variable and then of the second, as they are read.
  unfold ofVariables
  cases readOr readTerminator default.terminator (lookup terminatorKey) with
  | error e => exact ⟨nofun, nofun⟩
  | ok terminator =>
    cases readOr readFlush default.flushLines (lookup flushKey) with
    | error e => exact ⟨nofun, nofun⟩
    | ok flushLines =>
      constructor
      · intro h
        obtain rfl := Except.ok.inj h
        exact ⟨rfl, rfl⟩
      · rintro ⟨hterminator, hflush⟩
        obtain rfl := Except.ok.inj hterminator
        obtain rfl := Except.ok.inj hflush
        rfl

/-- The flushing is reported only if the terminator is accepted. -/
theorem ofVariables_eq_error_iff :
    ofVariables lookup = .error e ↔
      readOr readTerminator default.terminator (lookup terminatorKey) = .error e ∨
      (∃ t, readOr readTerminator default.terminator (lookup terminatorKey) = .ok t) ∧
        readOr readFlush default.flushLines (lookup flushKey) = .error e := by
  unfold ofVariables
  -- The second variable is read only if the first one has been accepted.
  cases readOr readTerminator default.terminator (lookup terminatorKey) with
  | error e' => simp [bind, Except.bind]
  | ok terminator =>
    cases readOr readFlush default.flushLines (lookup flushKey) <;>
      simp [bind, Except.bind, pure, Except.pure]

theorem ofVariables_congr (hterminator : lookup terminatorKey = lookup' terminatorKey)
    (hflush : lookup flushKey = lookup' flushKey) : ofVariables lookup = ofVariables lookup' := by
  rw [ofVariables, ofVariables, hterminator, hflush]

/-- The lookup that finds one variable and no other. -/
def alone (key value : String) : String → Option String :=
  fun name => if name = key then some value else none

/-- Whether a variable is rejected when it is the only one. -/
def RejectsAlone (key value : String) : Prop := ∃ e, ofVariables (alone key value) = .error e

/-- With a terminator alone, the flushing is the default one. -/
theorem ofVariables_alone_terminator (value : String) :
    ofVariables (alone terminatorKey value) =
      (fun t => { terminator := t, flushLines := default.flushLines }) <$>
        readTerminator value := by
  have hother : alone terminatorKey value flushKey = none := if_neg (by decide)
  rw [ofVariables, hother, alone, if_pos rfl]
  cases h : readTerminator value <;> simp [readOr, h] <;> rfl

theorem ofVariables_alone_flush (value : String) :
    ofVariables (alone flushKey value) =
      (fun f => { terminator := default.terminator, flushLines := f }) <$> readFlush value := by
  have hother : alone flushKey value terminatorKey = none := if_neg (by decide)
  rw [ofVariables, hother, alone, if_pos rfl]
  cases h : readFlush value <;> simp [readOr, h] <;> rfl

/-! ## Lookups -/

/-- A variable is rejected alone if its value is not accepted for its key. -/
theorem rejectsAlone_iff {key : String} :
    RejectsAlone key value ↔
      key = terminatorKey ∧ (∃ e, readTerminator value = .error e) ∨
      key = flushKey ∧ ∃ e, readFlush value = .error e := by
  unfold RejectsAlone
  by_cases hterminator : key = terminatorKey
  · have hflush : terminatorKey ≠ flushKey := by decide
    subst hterminator
    rw [ofVariables_alone_terminator]
    cases readTerminator value <;> simp [hflush]
  · by_cases hflush : key = flushKey
    · subst hflush
      rw [ofVariables_alone_flush]
      cases readFlush value <;> simp [hterminator]
    · -- A key that is not looked up finds no value to reject.
      have habsent : ofVariables (alone key value) = .ok default := by
        rw [ofVariables_eq_ok_iff]
        simp [alone, readOr, Ne.symm hterminator, Ne.symm hflush]
      simp [habsent, hterminator, hflush]

/-! ## Spellings of values -/

/-- What comes of reading settings, but for the value that an error reports. -/
def verdict {α : Type} (result : Except SettingError α) : Except (String × String) α :=
  result.mapError fun e => (e.key, e.expected)

/-- Both variables are missing, or the second is a spelling of the first. -/
abbrev Respells : Option String → Option String → Prop := Option.Rel Text.Respelled

/-- A variable that is respelled, or is still missing, has the same verdict. -/
theorem verdict_readOr {α : Type} {read : String → Except SettingError α} (absent : α)
    {v? w? : Option String} (h : Respells v? w?)
    (hread : ∀ v w, Text.Respelled v w → verdict (read w) = verdict (read v)) :
    verdict (readOr read absent w?) = verdict (readOr read absent v?) := by
  cases h with
  | none => rfl
  | some h => exact hread _ _ h

/-- A terminator in another spelling has the same verdict; the errors carry the value as it was
    given. -/
theorem verdict_readTerminator {v w : String} (h : Text.Respelled v w) :
    verdict (readTerminator w) = verdict (readTerminator v) := by
  rw [readTerminator, readTerminator, fold_eq_of_respelled h]
  cases terminatorOfWord? (fold v) <;> rfl

theorem verdict_readFlush {v w : String} (h : Text.Respelled v w) :
    verdict (readFlush w) = verdict (readFlush v) := by
  rw [readFlush, readFlush, fold_eq_of_respelled h]
  cases flagOfWord? (fold v) <;> rfl

/-- The verdict on two computations in a row is that on the first, then that on the second. -/
theorem verdict_bind {α β : Type} (r : Except SettingError α) (k : α → Except SettingError β) :
    verdict (r >>= k) = verdict r >>= fun x => verdict (k x) := by
  cases r <;> rfl

/-- How the values are spelled makes no difference to the settings, nor to which variable is
    rejected. -/
theorem verdict_ofVariables (hterminator : Respells (lookup terminatorKey) (lookup' terminatorKey))
    (hflush : Respells (lookup flushKey) (lookup' flushKey)) :
    verdict (ofVariables lookup') = verdict (ofVariables lookup) := by
  have ht := verdict_readOr default.terminator hterminator
    fun _ _ => verdict_readTerminator
  have hf := verdict_readOr default.flushLines hflush fun _ _ => verdict_readFlush
  simp only [ofVariables, verdict_bind, ht, hf]

/-! ## All or nothing -/

/-- There are no settings exactly if some variable is rejected when it is the only one. -/
theorem exists_error_iff :
    (∃ e, ofVariables lookup = .error e) ↔
      ∃ key value, lookup key = some value ∧ RejectsAlone key value := by
  constructor
  -- The error is that of one of the variables, which is rejected for the same reason when alone.
  · rintro ⟨e, he⟩
    simp only [ofVariables_eq_error_iff, readOr_eq_error_iff] at he
    rcases he with ⟨value, hvalue, hread⟩ | ⟨-, value, hvalue, hread⟩
    · exact ⟨terminatorKey, value, hvalue, rejectsAlone_iff.2 (.inl ⟨rfl, e, hread⟩)⟩
    · exact ⟨flushKey, value, hvalue, rejectsAlone_iff.2 (.inr ⟨rfl, e, hread⟩)⟩
  · rintro ⟨key, value, hvalue, hrejects⟩
    -- If both variables were accepted, the value would not be rejected alone.
    cases hresult : ofVariables lookup with
    | error e => exact ⟨e, rfl⟩
    | ok s =>
      simp only [ofVariables_eq_ok_iff, readOr_eq_ok_iff] at hresult
      rcases rejectsAlone_iff.1 hrejects with ⟨rfl, e, hread⟩ | ⟨rfl, e, hread⟩
      · rw [hresult.1.2 value hvalue] at hread
        exact nomatch hread
      · rw [hresult.2.2 value hvalue] at hread
        exact nomatch hread

/-- The error is that of one variable alone, with its value as it was given. -/
theorem error_alone (h : ofVariables lookup = .error e) :
    lookup e.key = some e.value ∧ ofVariables (alone e.key e.value) = .error e ∧
      (e.key = terminatorKey ∨ e.key = flushKey) := by
  simp only [ofVariables_eq_error_iff, readOr_eq_error_iff] at h
  -- The error is that of the first variable, or of the second behind an accepted first one.
  rcases h with ⟨value, hvalue, hread⟩ | ⟨-, value, hvalue, hread⟩
  · obtain rfl := readTerminator_eq_error hread
    refine ⟨hvalue, ?_, .inl rfl⟩
    rw [ofVariables_alone_terminator, hread]
    rfl
  · obtain rfl := readFlush_eq_error hread
    refine ⟨hvalue, ?_, .inr rfl⟩
    rw [ofVariables_alone_flush, hread]
    rfl

/-- If the terminator is rejected alone, then it is the variable that is reported. -/
theorem error_key (h : ofVariables lookup = .error e) (hvalue : lookup terminatorKey = some value)
    (hrejects : RejectsAlone terminatorKey value) : e.key = terminatorKey := by
  simp only [ofVariables_eq_error_iff] at h
  rcases h with hterminator | ⟨⟨t, ht⟩, -⟩
  · obtain ⟨v, -, hread⟩ := readOr_eq_error_iff.1 hterminator
    rw [readTerminator_eq_error hread]
  · -- The flushing is looked at only after the terminator has been accepted.
    have haccepted := (readOr_eq_ok_iff.1 ht).2 value hvalue
    rcases rejectsAlone_iff.1 hrejects with ⟨-, e', hread⟩ | ⟨hkey, -⟩
    · rw [haccepted] at hread
      exact nomatch hread
    · exact absurd hkey (by decide)

/-- Each variable decides its own field as it would alone, and the field of a missing one has its
    default. -/
theorem fields_alone (h : ofVariables lookup = .ok s) :
    (lookup terminatorKey = none → s.terminator = default.terminator) ∧
    (lookup flushKey = none → s.flushLines = default.flushLines) ∧
    (∀ value, lookup terminatorKey = some value →
      ofVariables (alone terminatorKey value) = .ok { default with terminator := s.terminator }) ∧
    ∀ value, lookup flushKey = some value →
      ofVariables (alone flushKey value) = .ok { default with flushLines := s.flushLines } := by
  simp only [ofVariables_eq_ok_iff, readOr_eq_ok_iff] at h
  -- Each variable fills its own field, so the other one may as well be missing.
  obtain ⟨⟨habsent, hterminator⟩, habsent', hflush⟩ := h
  refine ⟨habsent, habsent', fun value hvalue => ?_, fun value hvalue => ?_⟩
  · rw [ofVariables_alone_terminator, hterminator value hvalue]
    rfl
  · rw [ofVariables_alone_flush, hflush value hvalue]
    rfl

/-- Loading settings is all or nothing.  It depends on the two variables alone.  It fails exactly
    if some variable is rejected when it is the only one, with the error of that variable, which
    has its value as it was given; the terminator is reported before the flushing.  Where it
    succeeds, each variable decides its own field as it would alone, and the field of a missing one
    has its default.  Letter case and surrounding blanks make no difference to any of this. -/
theorem ofVariables_all_or_nothing :
    (∀ lookup lookup' : String → Option String, lookup terminatorKey = lookup' terminatorKey →
      lookup flushKey = lookup' flushKey → ofVariables lookup = ofVariables lookup') ∧
    (∀ lookup : String → Option String,
      (∃ e, ofVariables lookup = .error e) ↔
        ∃ key value, lookup key = some value ∧ RejectsAlone key value) ∧
    (∀ (lookup : String → Option String) (e : SettingError), ofVariables lookup = .error e →
      (lookup e.key = some e.value ∧ ofVariables (alone e.key e.value) = .error e ∧
        (e.key = terminatorKey ∨ e.key = flushKey)) ∧
      ∀ value, lookup terminatorKey = some value → RejectsAlone terminatorKey value →
        e.key = terminatorKey) ∧
    (∀ (lookup : String → Option String) (s : Settings), ofVariables lookup = .ok s →
      (lookup terminatorKey = none → s.terminator = default.terminator) ∧
      (lookup flushKey = none → s.flushLines = default.flushLines) ∧
      (∀ value, lookup terminatorKey = some value →
        ofVariables (alone terminatorKey value) =
          .ok { default with terminator := s.terminator }) ∧
      ∀ value, lookup flushKey = some value →
        ofVariables (alone flushKey value) =
          .ok { default with flushLines := s.flushLines }) ∧
    (∀ lookup lookup' : String → Option String,
      Respells (lookup terminatorKey) (lookup' terminatorKey) →
      Respells (lookup flushKey) (lookup' flushKey) →
      verdict (ofVariables lookup') = verdict (ofVariables lookup)) := by
  -- What it depends on, when it fails, with which error, what it yields, and which spellings count.
  refine ⟨?_, ?_, ?_, ?_, ?_⟩
  · intro lookup lookup' hterminator hflush
    exact ofVariables_congr hterminator hflush
  · intro lookup
    exact exists_error_iff
  · intro lookup e h
    exact ⟨error_alone h, fun value => error_key h⟩
  · intro lookup s h
    exact fields_alone h
  · intro lookup lookup' hterminator hflush
    exact verdict_ofVariables hterminator hflush

/-- Two rejected values; and a value in other letters behind a no-break space. -/
theorem ofVariables_all_or_nothing_two_rejected :
    let rejected : String → Option String :=
      fun name => if name = terminatorKey then some " Cr " else some "maybe"
    let spelled : String → Option String := alone terminatorKey "\u00A0CrLf"
    (ofVariables rejected = .error ⟨terminatorKey, " Cr ", "lf, crlf"⟩ ∧
      ofVariables (alone terminatorKey " Cr ") = .error ⟨terminatorKey, " Cr ", "lf, crlf"⟩) ∧
    (Respells (some "crlf") (spelled terminatorKey) ∧
      verdict (ofVariables spelled) = verdict (ofVariables (alone terminatorKey "crlf"))) := by
  intro rejected spelled
  have hread : readTerminator " Cr " = .error ⟨terminatorKey, " Cr ", "lf, crlf"⟩ := rfl
  have hlookup : rejected terminatorKey = some " Cr " := if_pos rfl
  have herror : ofVariables rejected = .error ⟨terminatorKey, " Cr ", "lf, crlf"⟩ := by
    rw [ofVariables_eq_error_iff, hlookup]
    exact .inl hread
  have hspelled : Respells (some "crlf") (some "\u00A0CrLf") := by
    -- The spelling is changed in two steps: first the letters, then the blank before them.
    have hletters : Text.Respelled "crlf" "CrLf" := by
      apply Text.Respelled.letters
      show List.Forall₂ Text.SameLetter ['c', 'r', 'l', 'f'] ['C', 'r', 'L', 'f']
      have hupper : Text.SameLetter 'c' 'C' ∧ Text.SameLetter 'l' 'L' :=
        ⟨.inr (.inr rfl), .inr (.inr rfl)⟩
      exact .cons hupper.1 (.cons (.inl rfl) (.cons hupper.2 (.cons (.inl rfl) .nil)))
    have hbefore : ∀ c ∈ ['\u00A0'], Text.isBlank c = true := List.forall_mem_singleton.2 rfl
    have hafter : ∀ c ∈ ([] : List Char), Text.isBlank c = true := nofun
    have hblanks : Text.Respelled "CrLf" "\u00A0CrLf" :=
      @Text.Respelled.blanks "CrLf" "\u00A0" "" hbefore hafter
    exact .some (hletters.trans hblanks)
  exact ⟨⟨herror, (ofVariables_all_or_nothing.2.2.1 rejected _ herror).1.2.1⟩, hspelled,
    ofVariables_all_or_nothing.2.2.2.2 _ _ hspelled .none⟩

end Settings

end ValueText
