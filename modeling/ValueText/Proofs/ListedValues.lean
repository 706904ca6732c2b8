import ValueText.Proofs.SettingsLoading

/-!
# The values that are listed

The error for a rejected value lists what its variable expects.  A value counts as one of these if
it spells it, with blanks around it and in letters of either case.

All values that are listed are accepted.  The terminator has no others, but the flushing is also
set by two words that no error lists.  So a variable accepts exactly what its errors list at every
value that spells neither of these words, and at no value that does.

## Key results

- `Text.trim_eq_iff`: what trimming leaves
- `spells_iff`: a value spells a word if it folds to it
- `accepts_listed_and_unlisted`: what each variable accepts, and where that is what it lists
-/

namespace ValueText

namespace Text

/-- Blank characters neither begin nor end a run. -/
structure Trimmed (cs : List Char) : Prop where
  head : ∀ c, cs.head? = some c → isBlank c = false
  last : ∀ c, cs.getLast? = some c → isBlank c = false

/-- Nothing is taken off a text that begins with no blank. -/
theorem dropWhile_isBlank_eq_self {cs : List Char} (h : ∀ c, cs.head? = some c → isBlank c = false) :
    cs.dropWhile isBlank = cs := by
  cases cs with
  | nil => rfl
  | cons c cs => exact List.dropWhile_cons_of_neg (by simp [h c rfl])

theorem Trimmed.trim_eq {cs : List Char} (h : Trimmed cs) : trim cs = cs := by
  have hlast : ∀ c, cs.reverse.head? = some c → isBlank c = false := by
    simpa [List.head?_reverse] using h.last
  rw [trim, dropWhile_isBlank_eq_self h.head, dropWhile_isBlank_eq_self hlast, List.reverse_reverse]

/-- Behind the blanks at the beginning comes no blank. -/
theorem head?_dropWhile_isBlank {cs : List Char} {c : Char}
    (h : (cs.dropWhile isBlank).head? = some c) : isBlank c = false := by
  have hnot := List.head?_dropWhile_not isBlank cs
  rw [h] at hnot
  simpa using hnot

/-- Trimming leaves no blank at either end. -/
theorem trimmed_trim (cs : List Char) : Trimmed (trim cs) where
  head c hc := by
    -- What the blanks at the end are taken from still begins as it did.
    have hprefix : trim cs <+: cs.dropWhile isBlank := by
      rw [← List.reverse_suffix, trim, List.reverse_reverse]
      exact List.dropWhile_suffix isBlank
    obtain ⟨after, hafter⟩ := hprefix
    have hhead : (cs.dropWhile isBlank).head? = some c := by
      rw [← hafter, List.head?_append, hc]
      rfl
    exact head?_dropWhile_isBlank hhead
  last c hc := by
    rw [trim, List.getLast?_reverse] at hc
    exact head?_dropWhile_isBlank hc

/-- Trimming takes a run of blanks from either end. -/
theorem exists_eq_trim (cs : List Char) :
    ∃ before after, cs = before ++ trim cs ++ after ∧
      (∀ c ∈ before, isBlank c = true) ∧ ∀ c ∈ after, isBlank c = true := by
  set behind := cs.dropWhile isBlank with hbehind
  refine ⟨cs.takeWhile isBlank, (behind.reverse.takeWhile isBlank).reverse, ?_, ?_, ?_⟩
  -- The blanks at the end are those that the reversed rest begins with.
  · have htrim : trim cs ++ (behind.reverse.takeWhile isBlank).reverse = behind := by
      rw [trim, ← hbehind, ← List.reverse_append, List.takeWhile_append_dropWhile,
        List.reverse_reverse]
    rw [List.append_assoc, htrim, hbehind, List.takeWhile_append_dropWhile]
  · exact fun c hc => List.mem_takeWhile_imp hc
  · exact fun c hc => List.mem_takeWhile_imp (List.mem_reverse.1 hc)

/-- Trimming leaves the trimmed run that stands between blanks. -/
theorem trim_eq_iff {cs core : List Char} :
    trim cs = core ↔ ∃ before after, cs = before ++ core ++ after ∧
      (∀ c ∈ before, isBlank c = true) ∧ (∀ c ∈ after, isBlank c = true) ∧ Trimmed core := by
  constructor
  · rintro rfl
    obtain ⟨before, after, heq, hbefore, hafter⟩ := exists_eq_trim cs
    exact ⟨before, after, heq, hbefore, hafter, trimmed_trim cs⟩
  -- Blanks around a trimmed text are taken off, and nothing else is.
  · rintro ⟨before, after, rfl, hbefore, hafter, hcore⟩
    rw [trim_append_blanks hafter, trim_blanks_append hbefore, hcore.trim_eq]

end Text

namespace Settings

/-- A value is a word with blanks around it and in letters of either case. -/
def Spells (value word : String) : Prop :=
  ∃ before core after, value.toList = before ++ core ++ after ∧
    (∀ c ∈ before, Text.isBlank c = true) ∧ (∀ c ∈ after, Text.isBlank c = true) ∧
    Text.Trimmed core ∧ core.map Char.toLower = word.toList

/-- A value spells the one word that it folds to. -/
theorem spells_iff {value word : String} : Spells value word ↔ fold value = word.toList := by
  constructor
  · rintro ⟨before, core, after, heq, hbefore, hafter, hcore, hword⟩
    rw [fold, Text.trim_eq_iff.2 ⟨before, after, heq, hbefore, hafter, hcore⟩, hword]
  · intro h
    obtain ⟨before, after, heq, hbefore, hafter, hcore⟩ :=
      Text.trim_eq_iff.1 (Eq.refl (Text.trim value.toList))
    exact ⟨before, _, after, heq, hbefore, hafter, hcore, h⟩

/-- The variables that settings are loaded from. -/
inductive Key where
  | terminator
  | flush
  deriving DecidableEq, Repr

namespace Key

def name : Key → String
  | terminator => terminatorKey
  | flush => flushKey

/-- The values that the errors of a variable list. -/
def listed : Key → List String
  | terminator => ["lf", "crlf"]
  | flush => ["1", "0", "true", "false"]

/-- The values that a variable accepts although its errors do not list them. -/
def unlisted : Key → List String
  | terminator => []
  | flush => ["yes", "no"]

/-- All values that a variable accepts, in the form to which values are folded. -/
def words (key : Key) : List (List Char) := (key.listed ++ key.unlisted).map String.toList

end Key

/-- Of two alternatives, something is found if one of them applies. -/
theorem isSome_ite_ite_iff {α : Type} {p q : Prop} [Decidable p] [Decidable q] {x y : α} :
    (if p then some x else if q then some y else none).isSome = true ↔ p ∨ q := by
  by_cases hp : p
  · simp [hp]
  · by_cases hq : q <;> simp [hp, hq]

/-- The words for a terminator are those of the list. -/
theorem isSome_terminatorOfWord?_iff {word : List Char} :
    (terminatorOfWord? word).isSome = true ↔ word ∈ Key.terminator.words := by
  have hwords : word ∈ Key.terminator.words ↔ word = "lf".toList ∨ word = "crlf".toList := by
    simp only [Key.words, Key.listed, Key.unlisted, List.append_nil, List.map_cons, List.map_nil,
      List.mem_cons, List.not_mem_nil, or_false]
  rw [hwords, terminatorOfWord?, isSome_ite_ite_iff]

/-- The words for a flag are those of the list and those that are not listed. -/
theorem isSome_flagOfWord?_iff {word : List Char} :
    (flagOfWord? word).isSome = true ↔ word ∈ Key.flush.words := by
  -- The words are not listed in the order in which they are looked for.
  have hwords : word ∈ Key.flush.words ↔
      word ∈ ["1".toList, "true".toList, "yes".toList] ∨
        word ∈ ["0".toList, "false".toList, "no".toList] := by
    simp only [Key.words, Key.listed, Key.unlisted, List.cons_append, List.nil_append,
      List.map_cons, List.map_nil, List.mem_cons, List.not_mem_nil, or_false]
    tauto
  rw [hwords, flagOfWord?, isSome_ite_ite_iff]

/-- Some word of a variable is spelled exactly if the value folds to one. -/
theorem exists_spells_iff (key : Key) (value : String) :
    (∃ word ∈ key.listed ++ key.unlisted, Spells value word) ↔ fold value ∈ key.words := by
  simp only [spells_iff, Key.words, List.mem_map, eq_comm]

/-- No value spells a word that is listed and one that is not. -/
theorem not_spells_unlisted {key : Key} {value : String}
    (h : ∃ word ∈ key.listed, Spells value word) : ¬∃ word ∈ key.unlisted, Spells value word := by
  rintro ⟨word', hunlisted, hspells'⟩
  obtain ⟨word, hlisted, hspells⟩ := h
  -- A value folds to one word only, and no word is in both lists.
  have hsame : word = word' :=
    String.toList_inj.1 ((spells_iff.1 hspells).symm.trans (spells_iff.1 hspells'))
  have hdisjoint : ∀ w ∈ key.listed, w ∉ key.unlisted := by cases key <;> decide
  exact hdisjoint word hlisted (hsame ▸ hunlisted)

/-! ## What a variable accepts -/

/-- A value of a variable is accepted if it spells one of some words, and is otherwise rejected by
    an error with the variable, the value as it was given, and all values that are listed. -/
structure AcceptsExactly (key : Key) (words : List String) (value : String) : Prop where
  accepted : (∃ s, ofVariables (alone key.name value) = .ok s) ↔ ∃ word ∈ words, Spells value word
  rejected : ofVariables (alone key.name value) =
      .error ⟨key.name, value, ", ".intercalate key.listed⟩ ↔
    ¬∃ word ∈ words, Spells value word

/-- A value that folds to a word of its variable is accepted, and every other one is reported as it
    was given. -/
theorem ofVariables_alone_eq (key : Key) (value : String) :
    (fold value ∈ key.words → ∃ s, ofVariables (alone key.name value) = .ok s) ∧
    (fold value ∉ key.words → ofVariables (alone key.name value) =
      .error ⟨key.name, value, ", ".intercalate key.listed⟩) := by
  -- By the variable, since each has its own reader.
  cases key with
  | terminator =>
    rw [← isSome_terminatorOfWord?_iff, Key.name, ofVariables_alone_terminator, readTerminator]
    cases terminatorOfWord? (fold value) with
    | none => exact ⟨fun h => absurd h Bool.false_ne_true, fun _ => rfl⟩
    | some t => exact ⟨fun _ => ⟨_, rfl⟩, fun h => absurd rfl h⟩
  | flush =>
    rw [← isSome_flagOfWord?_iff, Key.name, ofVariables_alone_flush, readFlush]
    cases flagOfWord? (fold value) with
    | none => exact ⟨fun h => absurd h Bool.false_ne_true, fun _ => rfl⟩
    | some f => exact ⟨fun _ => ⟨_, rfl⟩, fun h => absurd rfl h⟩

/-- A variable accepts exactly its words, those that its errors list and those that they do not. -/
theorem acceptsExactly_words (key : Key) (value : String) :
    AcceptsExactly key (key.listed ++ key.unlisted) value := by
  obtain ⟨hok, herror⟩ := ofVariables_alone_eq key value
  have hspells := exists_spells_iff key value
  constructor
  -- Loading yields settings or an error, so each of the two implications has its converse.
  · rw [hspells]
    refine ⟨fun ⟨s, hs⟩ => ?_, hok⟩
    by_contra hword
    rw [herror hword] at hs
    exact nomatch hs
  · rw [hspells]
    refine ⟨fun he hword => ?_, herror⟩
    obtain ⟨s, hs⟩ := hok hword
    rw [he] at hs
    exact nomatch hs

/-- A variable accepts the values that its errors list, the further ones of `Key.unlisted`, and no
    others.  So what it does with a value is told by its errors exactly if the value spells none of
    these further ones. -/
theorem accepts_listed_and_unlisted (key : Key) (value : String) :
    AcceptsExactly key (key.listed ++ key.unlisted) value ∧
    (AcceptsExactly key key.listed value ↔ ¬∃ word ∈ key.unlisted, Spells value word) := by
  have hall := acceptsExactly_words key value
  have hsplit : (∃ word ∈ key.listed ++ key.unlisted, Spells value word) ↔
      (∃ word ∈ key.listed, Spells value word) ∨ ∃ word ∈ key.unlisted, Spells value word := by
    simp only [List.mem_append, or_and_right, exists_or]
  refine ⟨hall, fun hlisted hunlisted => ?_, fun hunlisted => ?_⟩
  -- A further word is accepted, so it would have to be a listed one as well.
  · have hspells := hlisted.accepted.1 (hall.accepted.2 (hsplit.2 (.inr hunlisted)))
    exact not_spells_unlisted hspells hunlisted
  · have hsame : (∃ word ∈ key.listed ++ key.unlisted, Spells value word) ↔
        ∃ word ∈ key.listed, Spells value word := by
      rw [hsplit, or_iff_left hunlisted]
    exact ⟨hall.accepted.trans hsame, hall.rejected.trans (not_congr hsame)⟩

/-- The flushing is set by a word that its errors do not list. -/
theorem flush_accepts_yes :
    ofVariables (alone flushKey "yes") = .ok default ∧
      (¬∃ word ∈ Key.flush.listed, Spells "yes" word) ∧
      ¬AcceptsExactly .flush Key.flush.listed "yes" := by
  have hok : ofVariables (alone flushKey "yes") = .ok default := by decide +kernel
  -- The value folds to a word that is in no entry of the list.
  have hunlisted : ¬∃ word ∈ Key.flush.listed, Spells "yes" word := by
    simp only [spells_iff]
    decide +kernel
  exact ⟨hok, hunlisted, fun h => hunlisted (h.accepted.1 ⟨_, hok⟩)⟩

end Settings

end ValueText
