import ValueText.Console.Settings
import ValueText.Proofs.FloatRoundTrip
import ValueText.Proofs.IntegerRoundTrip

/-!
# Numbers on printed lines

A number is printed in its canonical text, and the terminator of its line cannot belong to a
number.  So a line with a number on it is read as that number, whether the terminator is still
there or not, and printing what was read gives the line again.

## Key results

- `FloatSyntax.Number.isLongest_append`: a number ends where a byte follows that no number has
- `NumberType.canonical?_append`: what is read from a printed number prints as before
- `NumberType.canonical?_integer`, `NumberType.canonical?_float`: canonical texts are kept
-/

namespace ValueText

namespace FloatSyntax

variable {number rest : Bytes} {negative : Bool} {value : Scan.FloatText}

/-- A number is not empty. -/
theorem Number.ne_nil (h : Number number negative value) : number ≠ [] := by
  cases h with
  | word hsign hword =>
    obtain ⟨c, tail, hc, -⟩ := hword.head []
    simp_all
  | decimal hsign hsignificand hexponent =>
    obtain ⟨c, tail, hc, -⟩ := hsignificand.head []
    simp_all

/-- No blank stands before a number, so nothing of the text is skipped. -/
theorem Number.skipBlanks_append (h : Number number negative value) (rest : Bytes) :
    Scan.skipBlanks (number ++ rest) = number ++ rest := by
  have hskip := h.skipBlanks
  cases number with
  | nil => exact absurd rfl h.ne_nil
  | cons c tail =>
    unfold Scan.skipBlanks at hskip ⊢
    rw [List.dropWhile_cons] at hskip
    split at hskip
    next hblank =>
      -- Nothing that was dropped comes back.
      have hlength := List.length_dropWhile_le Char8.isBlank tail
      rw [hskip, List.length_cons] at hlength
      omega
    next hblank => rw [List.cons_append, List.dropWhile_cons_of_neg hblank]

/-- A number ends before a byte that no number has. -/
theorem Number.isLongest_append (h : Number number negative value)
    (hrest : ∀ c, rest.head? = some c → ¬IsVisible c) :
    IsLongest number (Scan.skipBlanks (number ++ rest)) := by
  rw [h.skipBlanks_append]
  refine ⟨List.prefix_append _ _, ⟨negative, value, h⟩, fun p hp hnumber => ?_⟩
  obtain ⟨negative', value', hnumber⟩ := hnumber
  by_contra hlonger
  -- A longer number would go on with the byte that follows.
  obtain ⟨more, rfl⟩ :=
    List.prefix_of_prefix_length_le (List.prefix_append number rest) hp (by omega)
  rw [List.prefix_append_right_inj] at hp
  cases more with
  | nil => simp at hlonger
  | cons c more =>
    obtain ⟨tail, rfl⟩ := hp
    exact hrest c rfl (hnumber.isVisible c (by simp))

/-- What is read from a number is also read if something follows it that cannot lengthen it. -/
theorem readFloat_append {f : FloatType} {x : Binary f} (h : Number number negative value)
    (hrest : ∀ c, rest.head? = some c → ¬IsVisible c) (hread : readFloat f number = .ok x) :
    readFloat f (number ++ rest) = .ok x := by
  rw [h.isLongest.readFloat_eq h] at hread
  rw [(h.isLongest_append hrest).readFloat_eq h]
  split at hread
  next => cases hread
  next hstays => rw [if_neg hstays, hread]

/-- What is read from a line with the text of a datum has the same text. -/
theorem readFloat_line {f : FloatType} (x : Binary f)
    (hrest : ∀ c, rest.head? = some c → ¬IsVisible c) :
    ∃ y, readFloat f (x.text .plain ++ rest) = .ok y ∧ y.text .plain = x.text .plain := by
  obtain ⟨value, hnumber, -⟩ := number_text x
  have hread := readFloat_text_eq x
  -- What is not a number may come back as another datum that is not one; all of them print alike.
  split at hread
  next hnan =>
    obtain ⟨y, hy, hynan⟩ := hread
    refine ⟨y, readFloat_append hnumber hrest hy, ?_⟩
    rw [Binary.text, Binary.text, if_pos hnan, if_pos hynan]
  next => exact ⟨x, readFloat_append hnumber hrest hread, rfl⟩

end FloatSyntax

namespace NumberType

/-- The canonical text of the number that a text begins with, if it begins with one. -/
def canonical? (kind : NumberType) (text : Bytes) : Option Bytes :=
  match kind with
  | .integer k => (readInteger k text).toOption.map fun n => (Text.ofValue n).toList
  | .float f => (readFloat f text).toOption.map fun x => (Text.ofValue x).toList

/-- Whether nothing that a number has follows. -/
def EndsBefore (rest : Bytes) : Prop := ∀ c, rest.head? = some c → ¬FloatSyntax.IsVisible c

theorem endsBefore_nil : EndsBefore [] := by simp [EndsBefore]

theorem endsBefore_terminator (terminator : Terminator) : EndsBefore terminator.bytes := by
  cases terminator <;>
    simp [EndsBefore, Terminator.bytes, FloatSyntax.IsVisible, Char8.lineFeed,
      Char8.carriageReturn]

/-- The text of an integer is canonical, also on a line of its own. -/
theorem canonical?_integer {k : IntType} (n : Integer k) {rest : Bytes} (hrest : EndsBefore rest) :
    canonical? (.integer k) ((Text.ofValue n).toList ++ rest) = some (Text.ofValue n).toList := by
  -- What follows is invisible, so it cannot be a digit.
  have hdigit (c : Char8) (hc : rest.head? = some c) : c.isDigit = false := by
    rw [← Bool.not_eq_true]
    exact fun h => hrest c hc (FloatSyntax.isVisible_of_isDigit h)
  have hblanks : ∀ c ∈ ([] : Bytes), c.isBlank = true := by simp
  have hread := readInteger_numeral n hblanks hdigit
  rw [List.nil_append, ← n.toList_text] at hread
  rw [canonical?, hread]
  rfl

/-- The text of a floating-point number is canonical, also on a line of its own, though of the
    NaNs another one may be read that has the same text. -/
theorem canonical?_float {f : FloatType} (x : Binary f) {rest : Bytes} (hrest : EndsBefore rest) :
    canonical? (.float f) ((Text.ofValue x).toList ++ rest) = some (Text.ofValue x).toList := by
  have htext (y : Binary f) : (Text.ofValue y).toList = y.text .plain := Text.toList_ofValue y
  obtain ⟨y, hread, hy⟩ := FloatSyntax.readFloat_line x hrest
  rw [htext, canonical?, hread]
  exact congrArg some ((htext y).trans hy)

/-- What was read and printed is read and printed again. -/
theorem canonical?_append {kind : NumberType} {text number rest : Bytes}
    (h : kind.canonical? text = some number) (hrest : EndsBefore rest) :
    kind.canonical? (number ++ rest) = some number := by
  -- The canonical text is that of a value, so it is read again.
  cases kind with
  | integer k =>
    obtain ⟨n, -, rfl⟩ := Option.map_eq_some_iff.1 h
    exact canonical?_integer n hrest
  | float f =>
    obtain ⟨x, -, rfl⟩ := Option.map_eq_some_iff.1 h
    exact canonical?_float x hrest

end NumberType

end ValueText
