import ValueText.Proofs.IntegerReading
import ValueText.Proofs.LongestFloat

/-!
# Space before a number

The C conversions pass over six bytes before a number: tab, line feed, vertical tab, form feed,
carriage return and space.  The readers of this library pass over five of them.  The vertical tab
ends the blanks, and as no number begins with it, nothing that stands behind it is read.

So space can be put before a text without a change of what is read exactly if it has no vertical
tab, or if the text has no number anyway.  This is the same for integers and for floating-point
numbers, since both are read from what stands behind the blanks (`ReadsBehindBlanks`).

## Key results

- `ReadsBehindBlanks.append`: what a reader yields behind space of all six kinds
- `readsBehindBlanks_readInteger`, `readsBehindBlanks_readFloat`: the readers of this library
- `space_skipped_iff`: when space before a text makes no difference
-/

namespace ValueText

namespace Char8

/-- The byte of space that is not a blank. -/
def verticalTab : Char8 := 11

/-- A byte that the C conversions pass over before a number. -/
def isSpace (c : Char8) : Bool := 9 ≤ c && c ≤ 13 || c == 32

/-- Space is what is skipped, and the vertical tab. -/
theorem isSpace_iff {c : Char8} : c.isSpace = true ↔ c.isBlank = true ∨ c = verticalTab := by
  simp only [isSpace, isBlank, verticalTab, Bool.or_eq_true, Bool.and_eq_true, decide_eq_true_eq,
    beq_iff_eq, UInt8.le_iff_toNat_le, ← UInt8.toNat_inj, UInt8.reduceToNat]
  omega

theorem isBlank_verticalTab : verticalTab.isBlank = false := rfl

end Char8

/-! ## What is read behind space -/

/-- What a reader yields depends on the text behind the blanks alone, and it finds no number
    there if that text begins with a vertical tab. -/
structure ReadsBehindBlanks {α : Type} (outcome : Bytes → Except NumberFault α) : Prop where
  congr : ∀ {text text' : Bytes}, Scan.skipBlanks text = Scan.skipBlanks text' →
    outcome text = outcome text'
  noNumber : ∀ rest : Bytes, outcome (Char8.verticalTab :: rest) = .error .noNumber

namespace ReadsBehindBlanks

variable {α : Type} {outcome : Bytes → Except NumberFault α}

/-- One byte of space is skipped unless it is a vertical tab. -/
theorem cons (h : ReadsBehindBlanks outcome) {c : Char8} (hc : c.isSpace = true) (text : Bytes) :
    outcome (c :: text) = if c = Char8.verticalTab then .error .noNumber else outcome text := by
  split
  next htab => rw [htab, h.noNumber]
  next htab =>
    have hblank := (Char8.isSpace_iff.1 hc).resolve_right htab
    exact h.congr (List.dropWhile_cons_of_pos hblank)

/-- Space is skipped unless it has a vertical tab. -/
theorem append (h : ReadsBehindBlanks outcome) {space : Bytes}
    (hspace : ∀ c ∈ space, c.isSpace = true) (text : Bytes) :
    outcome (space ++ text) =
      if Char8.verticalTab ∈ space then .error .noNumber else outcome text := by
  -- The first vertical tab decides; up to there every byte is a blank.
  induction space with
  | nil => rfl
  | cons c space ih =>
    rw [List.forall_mem_cons] at hspace
    rw [List.cons_append, h.cons hspace.1, ih hspace.2]
    by_cases hc : c = Char8.verticalTab
    · simp [hc]
    · simp [hc, Ne.symm hc]

/-- Space makes no difference without a vertical tab; with one it makes none only where there was no
    number in the first place. -/
theorem append_eq_iff (h : ReadsBehindBlanks outcome) {space : Bytes}
    (hspace : ∀ c ∈ space, c.isSpace = true) (text : Bytes) :
    outcome (space ++ text) = outcome text ↔
      Char8.verticalTab ∉ space ∨ outcome text = .error .noNumber := by
  rw [h.append hspace]
  by_cases htab : Char8.verticalTab ∈ space
  · simp [htab, eq_comm]
  · simp [htab]

end ReadsBehindBlanks

/-! ## The readers -/

/-- A text that begins with a vertical tab has no blanks. -/
theorem Scan.skipBlanks_verticalTab (rest : Bytes) :
    skipBlanks (Char8.verticalTab :: rest) = Char8.verticalTab :: rest :=
  List.dropWhile_cons_of_neg (by simp [Char8.isBlank_verticalTab])

/-- The reader of integers looks at nothing but what stands behind the blanks. -/
theorem readsBehindBlanks_readInteger (k : IntType) :
    ReadsBehindBlanks fun text => readingOutcome (readInteger k text) where
  congr {text text'} h := by
    -- The two texts fail with the same fault, though each failure carries its own text.
    simp only [readInteger, h]
    cases Scan.integer? (Scan.skipBlanks text') with
    | none => rfl
    | some found =>
      cases hword : Scan.magnitude? found.1.digits with
      | none => simp only [hword]; rfl
      | some m =>
        simp only [hword]
        cases Integer.ofInt? k (if found.1.negative then -(m.toNat : Int) else m.toNat) <;> rfl
  noNumber rest := by
    have hnone : Scan.integer? (Char8.verticalTab :: rest) = none := rfl
    simp only [readInteger, Scan.skipBlanks_verticalTab, hnone]
    rfl

/-- The reader of floating-point numbers does so as well. -/
theorem readsBehindBlanks_readFloat (f : FloatType) :
    ReadsBehindBlanks fun text => floatOutcome (readFloat f text) where
  congr {text text'} h := by
    simp only [readFloat, h]
    rcases Scan.float? (Scan.skipBlanks text') with _ | ⟨negative, value, rest⟩
    · rfl
    -- Only a decimal is checked against the range, and its text plays no part in that.
    · cases value with
      | infinity => rfl
      | nan => rfl
      | decimal digits exponent =>
        dsimp only
        split
        next => rfl
        next => split <;> rfl
  noNumber rest := by
    have hnone : Scan.float? (Char8.verticalTab :: rest) = none := rfl
    rw [FloatSyntax.readFloat_of_float?_eq_none (by rw [Scan.skipBlanks_verticalTab, hnone])]
    rfl

/-- Space before a text, of any of the six kinds, makes no difference to what is read exactly if it
    has no vertical tab or if the text has no number.  With a vertical tab no number is found. -/
theorem space_skipped_iff {space : Bytes} (hspace : ∀ c ∈ space, c.isSpace = true) (text : Bytes) :
    (∀ k : IntType,
      (readingOutcome (readInteger k (space ++ text)) =
        if Char8.verticalTab ∈ space then .error .noNumber
        else readingOutcome (readInteger k text)) ∧
      (readingOutcome (readInteger k (space ++ text)) = readingOutcome (readInteger k text) ↔
        Char8.verticalTab ∉ space ∨ readingOutcome (readInteger k text) = .error .noNumber)) ∧
    ∀ f : FloatType,
      (floatOutcome (readFloat f (space ++ text)) =
        if Char8.verticalTab ∈ space then .error .noNumber
        else floatOutcome (readFloat f text)) ∧
      (floatOutcome (readFloat f (space ++ text)) = floatOutcome (readFloat f text) ↔
        Char8.verticalTab ∉ space ∨ floatOutcome (readFloat f text) = .error .noNumber) :=
  -- Both kinds of readers look at nothing but what stands behind the blanks.
  ⟨fun k => ⟨(readsBehindBlanks_readInteger k).append hspace text,
    (readsBehindBlanks_readInteger k).append_eq_iff hspace text⟩,
   fun f => ⟨(readsBehindBlanks_readFloat f).append hspace text,
    (readsBehindBlanks_readFloat f).append_eq_iff hspace text⟩⟩

/-- A space and a tab are skipped, and a form feed behind a vertical tab is not reached. -/
theorem space_skipped_iff_tabs :
    readingOutcome (readInteger .u64 ([32, 9] ++ Bytes.ofString " 5")) =
        readingOutcome (readInteger .u64 (Bytes.ofString " 5")) ∧
      floatOutcome (readFloat .f64 ([11, 12] ++ Bytes.ofString "2.5")) = .error .noNumber := by
  have hspace : ∀ c ∈ ([32, 9] : Bytes), c.isSpace = true := by decide +kernel
  have htabs : ∀ c ∈ ([11, 12] : Bytes), c.isSpace = true := by decide +kernel
  obtain ⟨hinteger, -⟩ := space_skipped_iff hspace (Bytes.ofString " 5")
  obtain ⟨-, hfloat⟩ := space_skipped_iff htabs (Bytes.ofString "2.5")
  exact ⟨(hinteger .u64).2.2 (.inl (by decide)), (hfloat .f64).1.trans (if_pos (by decide))⟩

/-- A vertical tab counts as space, and it makes each reader miss the number behind it. -/
theorem verticalTab_not_skipped :
    Char8.verticalTab.isSpace = true ∧
      readingOutcome (readInteger .i64 ([11] ++ Bytes.ofString "42")) = .error .noNumber ∧
      readingOutcome (readInteger .i64 (Bytes.ofString "42")) = .ok ⟨42, by decide, by decide⟩ ∧
      readingOutcome (readInteger .u64 ([32, 11] ++ Bytes.ofString "5")) = .error .noNumber ∧
      readingOutcome (readInteger .u64 (Bytes.ofString "5")) = .ok ⟨5, by decide, by decide⟩ ∧
      floatOutcome (readFloat .f64 ([11] ++ Bytes.ofString "2.5")) = .error .noNumber ∧
      (floatOutcome (readFloat .f64 (Bytes.ofString "2.5"))).map Binary.toBits =
        .ok 0x4004000000000000 := by
  refine ⟨by decide, ?_, ?_, ?_, ?_, rfl, ?_⟩ <;> decide +kernel

end ValueText
