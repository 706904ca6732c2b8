import ValueText.Bytes

/-!
# Longest runs of a class of bytes

A text that is cut behind the longest run of bytes of a class at its beginning: the run has only
bytes of the class, and what stands behind it does not begin with one.  There is one such cut,
and `takeWhile` and `dropWhile` find it.
-/

namespace ValueText

/-- `run` is the longest run of bytes of a class at the beginning of `run ++ rest`. -/
structure LongestRun (p : Char8 → Bool) (run rest : Bytes) : Prop where
  all : ∀ c ∈ run, p c = true
  stops : ∀ c, rest.head? = some c → p c = false

namespace LongestRun

variable {p : Char8 → Bool} {run rest : Bytes}

/-- Every text has a longest run at its beginning. -/
theorem takeWhile_dropWhile (p : Char8 → Bool) (text : Bytes) :
    LongestRun p (text.takeWhile p) (text.dropWhile p) where
  all := List.all_eq_true.1 List.all_takeWhile
  stops c hc := by simpa [hc] using List.head?_dropWhile_not p text

/-- `takeWhile` finds the run. -/
theorem takeWhile_append (h : LongestRun p run rest) : (run ++ rest).takeWhile p = run := by
  rw [List.takeWhile_append_of_pos h.all]
  cases rest with
  | nil => simp
  | cons c cs => simp [h.stops c rfl]

/-- `dropWhile` finds what stands behind the run. -/
theorem dropWhile_append (h : LongestRun p run rest) : (run ++ rest).dropWhile p = rest := by
  rw [List.dropWhile_append_of_pos h.all]
  cases rest with
  | nil => rfl
  | cons c cs => simp [h.stops c rfl]

/-- A text has only one longest run at its beginning. -/
theorem unique {run' rest' : Bytes} (h : LongestRun p run rest) (h' : LongestRun p run' rest')
    (heq : run ++ rest = run' ++ rest') : run = run' ∧ rest = rest' :=
  ⟨by rw [← h.takeWhile_append, heq, h'.takeWhile_append],
   by rw [← h.dropWhile_append, heq, h'.dropWhile_append]⟩

/-- No other prefix that has only bytes of the class is longer. -/
theorem length_le {q : Bytes} (h : LongestRun p run rest) (hq : q <+: run ++ rest)
    (hall : ∀ c ∈ q, p c = true) : q.length ≤ run.length := by
  apply Nat.le_of_not_lt
  intro hlonger
  -- A longer prefix goes on behind the run, with a byte that is not of the class.
  have hrun : run <+: q :=
    List.prefix_of_prefix_length_le (List.prefix_append run rest) hq (by omega)
  obtain ⟨behind, rfl⟩ := hrun
  obtain ⟨after, hafter⟩ := (List.prefix_append_right_inj run).1 hq
  cases behind with
  | nil => simp at hlonger
  | cons c behind =>
    have hstop := h.stops c (by simp [← hafter])
    have hclass := hall c (by simp)
    rw [hstop] at hclass
    exact nomatch hclass

end LongestRun

end ValueText
