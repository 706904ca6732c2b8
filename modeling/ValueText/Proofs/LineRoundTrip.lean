import ValueText.Proofs.LineReading
import ValueText.Proofs.SinkConservation

/-!
# Which texts are read back from the lines that they are printed on

Texts are printed one on each line and read again line by line.  The reader takes a carriage return
before a line feed for a part of the terminator, whichever terminator was written, so a text comes
back exactly if it has no line feed in it and, where lines end in a line feed alone, no carriage
return at its end (`IsLine`).

## Key results

- `Lines.lineFeed_not_mem_line`: no line has a line feed in it, whatever the text
- `LineWriter.run_printLines_bytes`: what printing lines leaves
- `LineReader.readLines_printed`: exactly which texts are read back
-/

namespace ValueText

/-! ## Lines of a text made of lines -/

/-- What stands before the line feed of a terminator. -/
def Terminator.lead : Terminator → Bytes
  | .lf => []
  | .crlf => [Char8.carriageReturn]

theorem Terminator.bytes_eq (terminator : Terminator) :
    terminator.bytes = terminator.lead ++ [Char8.lineFeed] := by
  cases terminator <;> rfl

theorem Terminator.lineFeed_not_mem_lead (terminator : Terminator) :
    Char8.lineFeed ∉ terminator.lead := by
  cases terminator <;> decide

namespace Lines

/-- What is left without a carriage return was there with it. -/
theorem mem_of_mem_dropReturn {line : Bytes} {c : Char8} (h : c ∈ dropReturn line) : c ∈ line := by
  unfold dropReturn at h
  split at h
  · exact List.dropLast_subset line h
  · exact h

/-- No line has a line feed in it. -/
theorem lineFeed_not_mem_line (text : Bytes) (i : Nat) : Char8.lineFeed ∉ line text i := by
  -- A line is taken from the front of the text, and the next one from what stands behind it.
  induction i generalizing text with
  | zero =>
    by_cases hmem : Char8.lineFeed ∈ text
    · obtain ⟨body, rest, rfl, hbody⟩ := List.eq_append_cons_of_mem hmem
      rw [line_zero_append hbody]
      exact fun h => hbody (mem_of_mem_dropReturn h)
    · rwa [line_zero_of_not_mem hmem]
  | succ i ih =>
    by_cases hmem : Char8.lineFeed ∈ text
    · obtain ⟨body, rest, rfl, hbody⟩ := List.eq_append_cons_of_mem hmem
      rw [line_succ_append hbody]
      exact ih rest
    · rw [line_succ_of_not_mem hmem]
      exact List.not_mem_nil

/-- Lines without line feeds, each followed by one, are read as these lines without their carriage
    returns. -/
theorem ofText_flatMap {parts : List Bytes} (h : ∀ part ∈ parts, Char8.lineFeed ∉ part) :
    ofText (parts.flatMap (· ++ [Char8.lineFeed])) = parts.map dropReturn := by
  induction parts with
  | nil => rfl
  | cons part parts ih =>
    have hparts := ih fun other hother => h other (List.mem_cons_of_mem _ hother)
    rw [List.flatMap_cons, List.append_assoc, List.singleton_append,
      ofText_append (h part List.mem_cons_self), hparts, List.map_cons]

/-- As many lines as there are in a text are all of them. -/
theorem map_line {text : Bytes} {parts : List Bytes} (h : ofText text = parts) :
    (List.range parts.length).map (line text) = parts := by
  apply List.ext_getElem
  · simp
  · intro i hi hparts
    simp [line, h, hparts]

/-- Behind the lines of a text come empty ones. -/
theorem line_of_length_le {text : Bytes} {i : Nat} (h : (ofText text).length ≤ i) :
    line text i = [] := by
  rw [line, List.getD_eq_getElem?_getD, List.getElem?_eq_none h, Option.getD_none]

end Lines

/-- Whether a text is read back from a line that it was printed on. -/
def IsLine (terminator : Terminator) (text : Bytes) : Prop :=
  Char8.lineFeed ∉ text ∧ (terminator = .lf → text.getLast? ≠ some Char8.carriageReturn)

/-- Of the text and the beginning of its terminator, the text is left unless it ends in a carriage
    return and the terminator has none. -/
theorem Lines.dropReturn_append_lead_iff (terminator : Terminator) (text : Bytes) :
    dropReturn (text ++ terminator.lead) = text ↔
      (terminator = .lf → text.getLast? ≠ some Char8.carriageReturn) := by
  cases terminator with
  | crlf => simp [dropReturn, Terminator.lead]
  | lf =>
    -- The carriage return at the end of the text itself is the one that is dropped.
    rw [Terminator.lead, List.append_nil, dropReturn]
    split
    next hlast =>
      have hpos := List.length_pos_of_mem (List.mem_of_getLast? hlast)
      have hshorter : text.dropLast ≠ text := by
        intro heq
        have hlength := congrArg List.length heq
        rw [List.length_dropLast] at hlength
        omega
      simp [hlast, hshorter]
    next hlast => simp [hlast]

/-! ## Printed lines -/

namespace Sink

/-- Whether a sink has no limit and its flushes do not fail. -/
structure RefusesNothing (sink : Sink) : Prop where
  limit_eq : sink.limit = none
  failsFlush_eq : sink.failsFlush = false

/-- Every text fits a sink without a limit. -/
theorem RefusesNothing.fits {sink : Sink} (h : sink.RefusesNothing) (text : Bytes) :
    sink.Fits text := by
  intro limit hlimit
  simp [h.limit_eq] at hlimit

theorem RefusesNothing.within {sink : Sink} (h : sink.RefusesNothing) : sink.Within := h.fits []

/-- An action that does not fail on a sink that refuses nothing. -/
def Succeeds (action : Action Unit) : Prop :=
  ∀ sink : Sink, sink.RefusesNothing → ∃ sink', action sink = .ok () sink' ∧ sink'.RefusesNothing

/-- Two actions that succeed also do so one after the other. -/
theorem succeeds_bind {a b : Action Unit} (ha : Succeeds a) (hb : Succeeds b) :
    Succeeds (a >>= fun _ => b) := by
  intro sink hsink
  obtain ⟨between, haok, hbetween⟩ := ha sink hsink
  -- What the first action leaves still refuses nothing.
  obtain ⟨last, hbok, hlast⟩ := hb between hbetween
  refine ⟨last, ?_, hlast⟩
  show EStateM.bind a (fun _ => b) sink = _
  rw [EStateM.bind, haok]
  exact hbok

/-- An action that only writes succeeds where nothing is refused. -/
theorem Writes.succeeds {action : Action Unit} {text : Bytes} (h : Writes action text) :
    Succeeds action := by
  intro sink hsink
  obtain ⟨hok, -⟩ := h sink hsink.within
  exact ⟨sink.receive text, hok (hsink.fits text), hsink.limit_eq, hsink.failsFlush_eq⟩

theorem succeeds_flush : Succeeds flush := by
  intro sink hsink
  exact ⟨_, if_neg (by simp [hsink.failsFlush_eq]), hsink.limit_eq, hsink.failsFlush_eq⟩

end Sink

namespace LineWriter

open Sink

/-- Ending a line succeeds, with a flush or without. -/
theorem succeeds_endLine (settings : Settings) : Succeeds (endLine settings) := by
  have hflush : Succeeds (if settings.flushLines then Sink.flush else pure ()) := by
    split
    next => exact succeeds_flush
    next => exact writes_pure.succeeds
  exact succeeds_bind (writes_write settings.terminator.bytes).succeeds hflush

/-- Every step succeeds. -/
theorem succeeds_action (settings : Settings) (step : Step) :
    Succeeds (step.action settings) := by
  cases step with
  | print args => exact (writes_print args).succeeds
  | printLine args => exact succeeds_bind (writes_print args).succeeds (succeeds_endLine settings)
  | endLine => exact succeeds_endLine settings
  | flush => exact succeeds_flush
  | settings => exact writes_pure.succeeds

/-- Behind a step there is again a sink that refuses nothing, so the next one succeeds as well. -/
theorem outcome_of_refusesNothing (settings : Settings) (step : Step) {sink : Sink}
    (h : sink.RefusesNothing) :
    ∃ sink', outcome sink (step.action settings) = (none, sink') ∧ sink'.RefusesNothing := by
  obtain ⟨sink', hok, hsink'⟩ := succeeds_action settings step sink h
  exact ⟨sink', by rw [outcome, hok], hsink'⟩

/-- Prints each text on a line of its own. -/
def printLines (texts : List Text) : List Step := texts.map fun t => .printLine [form t]

/-- A printed line is its text, a carriage return if lines end in one, and a line feed. -/
theorem intended_printLine (settings : Settings) (t : Text) :
    Step.intended settings (.printLine [form t]) =
      t.toList ++ settings.terminator.lead ++ [Char8.lineFeed] := by
  have htext : (format [form t]).toList = t.toList := Text.toList_ofValue t
  rw [Step.intended, htext, Terminator.bytes_eq, List.append_assoc]

/-- Printing texts on lines leaves each text with a terminator behind it. -/
theorem run_printLines_bytes (settings : Settings) (texts : List Text) :
    (run ⟨settings, {}⟩ (printLines texts)).1.sink.bytes =
      (texts.map fun t => t.toList ++ settings.terminator.lead).flatMap
        (· ++ [Char8.lineFeed]) := by
  have hrun := run_bytes ⟨settings, {}⟩ (fun limit _ => Nat.zero_le limit) (printLines texts)
  rw [hrun, printLines, List.flatMap_map, List.flatMap_map]
  exact congrArg (texts.flatMap ·) (funext (intended_printLine settings))

/-- Printing to a sink that refuses nothing never fails. -/
theorem run_failure (w : LineWriter) (h : w.sink.RefusesNothing) (steps : List Step) :
    ∀ report ∈ (w.run steps).2, report.failure = none := by
  -- By the steps, over all writers whose sink refuses nothing.
  induction steps generalizing w with
  | nil => exact fun report hreport => nomatch hreport
  | cons step steps ih =>
    intro report hreport
    obtain ⟨sink, houtcome, hsink⟩ := outcome_of_refusesNothing w.settings step h
    rcases List.mem_cons.1 hreport with rfl | hreport
    · exact congrArg Prod.fst houtcome
    · -- The sink that the first step leaves refuses nothing either.
      refine ih { w with sink := (outcome w.sink (step.action w.settings)).2 } ?_ report hreport
      rw [houtcome]
      exact hsink

end LineWriter

namespace LineReader

/-- Without failures a reader reads the lines of what its source has, whatever the chunks. -/
theorem readLines_pending (data : Bytes) (chunk : Nat) (hchunk : 0 < chunk) (count : Nat) :
    readLines { source := ⟨data, none, chunk, hchunk⟩ } count =
      (List.range count).map fun i => .ok (Lines.line data i) := by
  rw [readLines_feed]
  exact Feed.lines_map_some data count

/-- The lines that are read from printed texts, and the empty line behind them, if no text has a
    line feed in it. -/
theorem lines_printed (settings : Settings) (texts : List Text)
    (h : ∀ t ∈ texts, Char8.lineFeed ∉ t.toList) :
    Lines.ofText (LineWriter.run ⟨settings, {}⟩ (LineWriter.printLines texts)).1.sink.bytes =
      texts.map fun t => Lines.dropReturn (t.toList ++ settings.terminator.lead) := by
  rw [LineWriter.run_printLines_bytes, Lines.ofText_flatMap, List.map_map]
  · rfl
  -- Neither a text nor a carriage return has a line feed in it.
  · intro part hpart
    obtain ⟨t, ht, rfl⟩ := List.mem_map.1 hpart
    exact mt List.mem_append.1 (not_or.2 ⟨h t ht, settings.terminator.lineFeed_not_mem_lead⟩)

/-- Printing texts on lines and reading the lines are inverse on just the texts without a line
    feed that do not end in what the reader takes for a part of the terminator.  No line fails to
    be printed; if all texts are such, they are read back, and an empty line behind them; if one
    of them is not, something else is read. -/
theorem readLines_printed (settings : Settings) (texts : List Text) (chunk : Nat)
    (hchunk : 0 < chunk) :
    ∃ (writer : LineWriter) (reports : List LineWriter.Report),
      LineWriter.run ⟨settings, {}⟩ (LineWriter.printLines texts) = (writer, reports) ∧
      (∀ report ∈ reports, report.failure = none) ∧
      (readLines { source := ⟨writer.sink.bytes, none, chunk, hchunk⟩ } texts.length =
          texts.map (fun t => .ok t.toList) ↔
        ∀ t ∈ texts, IsLine settings.terminator t.toList) ∧
      ((∀ t ∈ texts, IsLine settings.terminator t.toList) →
        readLines { source := ⟨writer.sink.bytes, none, chunk, hchunk⟩ } (texts.length + 1) =
          texts.map (fun t => .ok t.toList) ++ [.ok []]) := by
  have hfailure := LineWriter.run_failure ⟨settings, {}⟩ ⟨rfl, rfl⟩
    (LineWriter.printLines texts)
  have hlines := lines_printed settings texts
  refine ⟨_, _, rfl, hfailure, ?_⟩
  simp only [readLines_pending]
  generalize (LineWriter.run ⟨settings, {}⟩ (LineWriter.printLines texts)).1.sink.bytes = written
    at hlines ⊢
  -- Without line feeds in the texts, each line is its text up to a carriage return at the end.
  have hread (hno : ∀ t ∈ texts, Char8.lineFeed ∉ t.toList) :
      (List.range texts.length).map (fun i => (.ok (Lines.line written i) : Except IoError Bytes)) =
        texts.map fun t => .ok (Lines.dropReturn (t.toList ++ settings.terminator.lead)) := by
    have hmap := congrArg (List.map (Except.ok (ε := IoError))) (Lines.map_line (hlines hno))
    rwa [List.length_map, List.map_map, List.map_map] at hmap
  -- If each text is a line then dropping the carriage return leaves what was printed.
  have hback (hall : ∀ t ∈ texts, IsLine settings.terminator t.toList) :
      (List.range texts.length).map (fun i => (.ok (Lines.line written i) : Except IoError Bytes)) =
        texts.map fun t => .ok t.toList := by
    rw [hread fun t ht => (hall t ht).1]
    exact List.map_congr_left fun t ht =>
      congrArg Except.ok ((Lines.dropReturn_append_lead_iff _ _).2 (hall t ht).2)
  refine ⟨⟨fun heq => ?_, hback⟩, fun hall => ?_⟩
  · -- What was read is a line, so no text that was read back has a line feed in it.
    have hno : ∀ t ∈ texts, Char8.lineFeed ∉ t.toList := by
      intro t ht
      have hmem : Except.ok t.toList ∈ texts.map fun t => (.ok t.toList : Except IoError Bytes) :=
        List.mem_map_of_mem ht
      rw [← heq] at hmem
      obtain ⟨i, -, hi⟩ := List.mem_map.1 hmem
      rw [← Except.ok.inj hi]
      exact Lines.lineFeed_not_mem_line written i
    rw [hread hno, List.map_inj_left] at heq
    exact fun t ht =>
      ⟨hno t ht, (Lines.dropReturn_append_lead_iff _ _).1 (Except.ok.inj (heq t ht))⟩
  · -- There are as many lines as texts, so the one behind them is empty.
    have hlength := congrArg List.length (hlines fun t ht => (hall t ht).1)
    rw [List.length_map] at hlength
    have hend := Nat.le_of_eq hlength
    rw [List.range_succ, List.map_append, hback hall, List.map_singleton,
      Lines.line_of_length_le hend]

/-- A carriage return at the end of a text is read back if lines end in one themselves, also when
    every byte is a chunk of its own. -/
theorem readLines_printed_crlf :
    0 < 1 ∧ (∀ t ∈ [Text.ofString "a\r", Text.ofString ""], IsLine .crlf t.toList) ∧
      readLines { source := ⟨(LineWriter.run ⟨⟨.crlf, true⟩, {}⟩
          (LineWriter.printLines [Text.ofString "a\r", Text.ofString ""])).1.sink.bytes,
          none, 1, by decide⟩ } 3 =
        [.ok (Bytes.ofString "a\r"), .ok [], .ok []] := by
  have hchunk : 0 < 1 := by decide
  have hall : ∀ t ∈ [Text.ofString "a\r", Text.ofString ""], IsLine .crlf t.toList := by
    intro t ht
    -- The carriage return is allowed, since lines do not end in a bare line feed.
    refine ⟨?_, nofun⟩
    revert t
    decide
  obtain ⟨writer, reports, hrun, -, -, hback⟩ := readLines_printed ⟨.crlf, true⟩
    [Text.ofString "a\r", Text.ofString ""] 1 hchunk
  rw [hrun]
  exact ⟨hchunk, hall, hback hall⟩

end LineReader

end ValueText
