import ValueText.Console.LineWriter
import ValueText.Proofs.RenderedText

/-!
# No byte is lost or doubled on the way to a sink

Printing puts out many small pieces, any of which may be cut short by the limit of the sink, and
stops at the first that is.  What arrives is nevertheless the beginning of the whole text, as
long as the limit allows: an action that fails for want of room has filled the sink, so that
nothing which is printed later can arrive out of order.

## Key results

- `Sink.writes_write`: the transfers of one piece leave the part of it that fits
- `LineWriter.leaves_action`: a step leaves the part of its text that fits, also when it fails
- `LineWriter.run_bytes`: what a run of steps leaves, whatever the sink held before
- `LineWriter.run_conserves`: what a run of steps leaves in a fresh sink
-/

namespace ValueText

namespace Sink

/-! ## What a sink holds -/

/-- The beginning of a text, as much of it as the sink may keep in all. -/
def cap (sink : Sink) (text : Bytes) : Bytes :=
  match sink.limit with
  | none => text
  | some limit => text.take limit

/-- Whether the sink keeps no more than it may. -/
def Within (sink : Sink) : Prop := ∀ limit, sink.limit = some limit → sink.bytes.length ≤ limit

/-- Whether a text fits into what is left of the sink. -/
def Fits (sink : Sink) (text : Bytes) : Prop :=
  ∀ limit, sink.limit = some limit → sink.bytes.length + text.length ≤ limit

/-- The sink after the part of a text that fits has arrived. -/
def receive (sink : Sink) (text : Bytes) : Sink :=
  { sink with kept := (sink.cap (sink.bytes ++ text)).toArray }

variable {sink : Sink} {s t : Bytes}

/-- A sink holds what it held and what it received, up to its limit. -/
@[simp] theorem bytes_receive : (sink.receive s).bytes = sink.cap (sink.bytes ++ s) :=
  List.toList_toArray

/-- A sink is within its limit whatever it receives. -/
theorem within_receive : (sink.receive s).Within := by
  intro limit hlimit
  have hsink : sink.limit = some limit := hlimit
  rw [bytes_receive, cap, hsink, List.length_take]
  exact Nat.min_le_left _ _

/-- What does not go beyond the limit is not cut short. -/
theorem cap_eq_self (h : ∀ limit, sink.limit = some limit → s.length ≤ limit) :
    sink.cap s = s := by
  unfold cap
  split
  next => rfl
  next limit hlimit => exact List.take_of_length_le (h limit hlimit)

/-- A text that fits arrives as a whole. -/
theorem bytes_receive_of_fits (h : sink.Fits s) : (sink.receive s).bytes = sink.bytes ++ s := by
  rw [bytes_receive]
  apply cap_eq_self
  intro limit hlimit
  rw [List.length_append]
  exact h limit hlimit

theorem fits_nil (h : sink.Within) : sink.Fits [] := h

theorem receive_nil (h : sink.Within) : sink.receive [] = sink := by
  rw [receive, List.append_nil, cap_eq_self h]
  rfl

/-- What a text leaves to fit is what its first part leaves. -/
theorem fits_append (h : sink.Fits s) : sink.Fits (s ++ t) ↔ (sink.receive s).Fits t := by
  unfold Fits
  rw [bytes_receive_of_fits h]
  simp only [List.length_append, Nat.add_assoc]
  exact Iff.rfl

/-- A text that fits and one behind it arrive as one text. -/
theorem receive_append (h : sink.Fits s) :
    sink.receive (s ++ t) = (sink.receive s).receive t := by
  have hbytes := bytes_receive_of_fits h
  rw [receive, ← List.append_assoc, ← hbytes]
  rfl

/-- Behind a text that does not fit, nothing arrives. -/
theorem receive_append_of_not_fits (h : ¬sink.Fits s) : sink.receive (s ++ t) = sink.receive s := by
  unfold Fits at h
  simp only [Classical.not_forall, Nat.not_le] at h
  obtain ⟨limit, hlimit, hlt⟩ := h
  rw [receive, receive, cap, cap, hlimit]
  simp only
  -- The first text reaches the limit already, where the bytes are cut off.
  rw [← List.append_assoc, List.take_append_of_le_length]
  rw [List.length_append]
  exact Nat.le_of_lt hlt

/-- A text does not fit if its beginning does not. -/
theorem not_fits_append (h : ¬sink.Fits s) : ¬sink.Fits (s ++ t) := by
  intro hfits
  apply h
  intro limit hlimit
  have := hfits limit hlimit
  rw [List.length_append] at this
  omega

/-! ## Writing -/

/-- An action that writes a text: what fits of the text arrives, and the action fails if that is
    not all. -/
def Writes (action : Action Unit) (text : Bytes) : Prop :=
  ∀ sink : Sink, sink.Within →
    (sink.Fits text → action sink = .ok () (sink.receive text)) ∧
    (¬sink.Fits text → action sink = .error .noRoom (sink.receive text))

theorem writes_bind {a b : Action Unit} (ha : Writes a s) (hb : Writes b t) :
    Writes (a >>= fun _ => b) (s ++ t) := by
  -- By whether the first text fits, for that decides whether the second action is run at all.
  intro sink hsink
  obtain ⟨haok, haerror⟩ := ha sink hsink
  by_cases hs : sink.Fits s
  · -- All of `s` arrived, and `b` goes on from there.
    obtain ⟨hbok, hberror⟩ := hb (sink.receive s) within_receive
    have hrun : (a >>= fun _ => b) sink = b (sink.receive s) := by
      show EStateM.bind a (fun _ => b) sink = _
      rw [EStateM.bind, haok hs]
    rw [hrun, fits_append hs, receive_append hs]
    exact ⟨hbok, hberror⟩
  · -- `b` is skipped, and the sink is as full as `s ++ t` would have left it.
    have hrun : (a >>= fun _ => b) sink = .error .noRoom (sink.receive s) := by
      show EStateM.bind a (fun _ => b) sink = _
      rw [EStateM.bind, haerror hs]
    rw [hrun, receive_append_of_not_fits hs]
    exact ⟨fun hfits => absurd hfits (not_fits_append hs), fun _ => rfl⟩

theorem writes_pure : Writes (pure ()) [] := by
  intro sink hsink
  rw [receive_nil hsink]
  exact ⟨fun _ => rfl, fun h => absurd (fits_nil hsink) h⟩

/-- One transfer takes exactly what arrives of a piece. -/
theorem cap_append (hsink : sink.Within) (piece : Bytes) :
    sink.cap (sink.bytes ++ piece) = sink.bytes ++ piece.take (sink.room piece.length) := by
  unfold cap room
  unfold Within at hsink
  cases hlimit : sink.limit with
  | none => rw [List.take_length]
  | some limit =>
    -- What was kept is within the limit, so the limit only cuts the piece.
    have hlength : sink.bytes.length ≤ limit := hsink limit hlimit
    have hsize : sink.bytes.length = sink.kept.size := Array.length_toList
    simp only
    rw [List.take_append, List.take_of_length_le hlength, hsize]
    congr 1
    rw [List.take_eq_take_iff]
    omega

/-- A sink within its limit takes what there is room for, which is what it receives. -/
theorem transfer_eq_receive (hsink : sink.Within) (piece : Bytes) :
    sink.transfer piece = sink.receive piece := by
  -- Cutting off at the limit is taking as much as there is room for.
  have hkept : (sink.cap (sink.bytes ++ piece)).toArray =
      sink.kept ++ piece.take (sink.room piece.length) := by
    rw [cap_append hsink]
    apply Array.ext'
    rw [List.toList_toArray, Array.toList_appendList]
    rfl
  rw [transfer, receive, hkept]

/-- For a text that fits there is room. -/
theorem room_of_fits {piece : Bytes} (h : sink.Fits piece) :
    sink.room piece.length = piece.length := by
  unfold room
  split
  next => rfl
  next limit hlimit =>
    have hfits : sink.kept.size + piece.length ≤ limit := h limit hlimit
    omega

/-- A transfer that does not take all of a piece fills the sink. -/
theorem room_of_not_fits {piece : Bytes} (hsink : sink.Within) (h : ¬sink.Fits piece) :
    sink.room piece.length < piece.length ∧
      ∀ count, (sink.transfer piece).room count = 0 := by
  unfold Fits at h
  simp only [Classical.not_forall, Nat.not_le] at h
  obtain ⟨limit, hlimit, hlt⟩ := h
  have hsize : sink.bytes.length = sink.kept.size := Array.length_toList
  have hlength := hsink limit hlimit
  -- There is room up to the limit, and none behind it once the piece has been taken.
  have hroom : sink.room piece.length = limit - sink.kept.size := by
    rw [room, hlimit]
    simp only
    omega
  constructor
  · omega
  · intro count
    have hkept : (sink.transfer piece).kept.size = limit := by
      rw [transfer, ← Array.length_toList, Array.toList_appendList, List.length_append,
        List.length_take, hroom, Array.length_toList]
      omega
    have hlimit' : (sink.transfer piece).limit = some limit := hlimit
    rw [room, hlimit']
    simp only
    omega

/-- A sink without room refuses whatever is not empty. -/
theorem write_of_room_eq_zero {piece : Bytes} (hpiece : piece ≠ [])
    (hroom : ∀ count, sink.room count = 0) : write piece sink = .error .noRoom sink := by
  have htransfer : sink.transfer piece = sink := by
    rw [transfer, hroom, List.take_zero, Array.appendList_nil]
  rw [write, if_neg (by rwa [List.isEmpty_iff]), if_pos (hroom _), htransfer]

/-- A piece that fits is written by one transfer.  Of one that does not fit, the first transfer
    takes what fits and the next one takes nothing. -/
theorem writes_write (piece : Bytes) : Writes (write piece) piece := by
  intro sink hsink
  constructor
  -- A text that fits is taken in one transfer, and nothing is left to be written.
  · intro hfits
    by_cases hempty : piece = []
    · rw [hempty, receive_nil hsink, write]
      rfl
    · have htaken : sink.room piece.length ≠ 0 := by
        rw [room_of_fits hfits]
        exact mt List.length_eq_zero_iff.1 hempty
      rw [write, if_neg (by rwa [List.isEmpty_iff]), if_neg htaken, room_of_fits hfits,
        List.drop_length, transfer_eq_receive hsink, write]
      rfl
  · intro hfits
    obtain ⟨hpartial, hfull⟩ := room_of_not_fits hsink hfits
    have hempty : piece ≠ [] := List.length_pos_iff.1 (Nat.zero_lt_of_lt hpartial)
    rw [write, if_neg (by rwa [List.isEmpty_iff]), ← transfer_eq_receive hsink]
    -- The write fails at the first transfer if the sink was full before, else at the second.
    by_cases htaken : sink.room piece.length = 0
    · exact if_pos htaken
    · have hrest : piece.drop (sink.room piece.length) ≠ [] := by
        rw [← List.length_pos_iff, List.length_drop]
        omega
      rw [← write_of_room_eq_zero hrest hfull]
      exact if_neg htaken

/-- Pieces written one after the other are written as one text. -/
theorem writes_writeAll (pieces : List Bytes) : Writes (writeAll pieces) pieces.flatten := by
  induction pieces with
  | nil => exact writes_pure
  | cons piece pieces ih => exact writes_bind (writes_write piece) ih

/-- What is put out to a sink in pieces is written as one text, so forms can be rendered to it. -/
theorem carries_writes : Carries Writes where
  pure := writes_pure
  bind := writes_bind
  put := writes_write
  putFragments := writes_writeAll

/-- An action that leaves a text: what fits of the text arrives, whether or not the action
    fails. -/
def Leaves (action : Action Unit) (text : Bytes) : Prop :=
  ∀ sink : Sink, sink.Within →
    ∃ flushes, (LineWriter.outcome sink action).2 = { sink.receive text with flushes }

/-- An action that writes a text leaves what there was room for. -/
theorem Writes.leaves {a : Action Unit} (ha : Writes a s) : Leaves a s := by
  intro sink hsink
  obtain ⟨hok, herror⟩ := ha sink hsink
  refine ⟨sink.flushes, ?_⟩
  unfold LineWriter.outcome
  -- Whether the text fits decides how the action ends, but not what it leaves.
  by_cases hs : sink.Fits s
  · rw [hok hs]
    rfl
  · rw [herror hs]
    rfl

/-- Flushing leaves no bytes, also when it fails. -/
theorem leaves_flush : Leaves flush [] := by
  intro sink hsink
  rw [receive_nil hsink]
  unfold LineWriter.outcome flush
  -- A flush that succeeds is counted, but in both cases the bytes stay as they are.
  by_cases hfails : sink.failsFlush
  · rw [if_pos hfails]
    exact ⟨sink.flushes, rfl⟩
  · rw [if_neg hfails]
    exact ⟨sink.flushes + 1, rfl⟩

/-- After a text that was cut short the second action is skipped, and it could not have left
    anything. -/
theorem Writes.bind_leaves {a b : Action Unit} (ha : Writes a s) (hb : Leaves b t) :
    Leaves (a >>= fun _ => b) (s ++ t) := by
  intro sink hsink
  obtain ⟨hok, herror⟩ := ha sink hsink
  -- Either the second action goes on from a full first text, or it is never run.
  by_cases hs : sink.Fits s
  · obtain ⟨flushes, hb⟩ := hb (sink.receive s) within_receive
    have hrun : (a >>= fun _ => b) sink = b (sink.receive s) := by
      show EStateM.bind a (fun _ => b) sink = _
      rw [EStateM.bind, hok hs]
    refine ⟨flushes, ?_⟩
    rw [receive_append hs, ← hb, LineWriter.outcome, LineWriter.outcome, hrun]
  · have hrun : (a >>= fun _ => b) sink = .error .noRoom (sink.receive s) := by
      show EStateM.bind a (fun _ => b) sink = _
      rw [EStateM.bind, herror hs]
    refine ⟨sink.flushes, ?_⟩
    rw [receive_append_of_not_fits hs, LineWriter.outcome, hrun]
    rfl

/-- What was cut off once is not missed by cutting again. -/
theorem cap_cap_append : sink.cap (sink.cap s ++ t) = sink.cap (s ++ t) := by
  unfold cap
  cases sink.limit with
  | none => rfl
  | some limit =>
    simp only
    rw [List.take_append, List.take_append, List.take_take, Nat.min_self, List.length_take]
    congr 2
    omega

end Sink

namespace LineWriter

open Sink

/-! ## Printing -/

/-- The text that a step is there to print. -/
def Step.intended (settings : Settings) : Step → Bytes
  | .print args => (format args).toList
  | .printLine args => (format args).toList ++ settings.terminator.bytes
  | .endLine => settings.terminator.bytes
  | .flush => []
  | .settings => []

/-- Printing writes the text that `format` gives. -/
theorem writes_print (args : List Form) : Writes (print args) (format args).toList := by
  rw [toList_format]
  exact carries_renderAll carries_writes args

/-- Ending a line leaves its terminator, whether the flush succeeds or not. -/
theorem leaves_endLine (settings : Settings) :
    Leaves (endLine settings) settings.terminator.bytes := by
  -- A failing flush comes after the terminator, which it cannot take back.
  have hflush : Leaves (if settings.flushLines then Sink.flush else pure ()) [] := by
    split
    next => exact leaves_flush
    next => exact writes_pure.leaves
  have hline := (writes_write settings.terminator.bytes).bind_leaves hflush
  rwa [List.append_nil] at hline

/-- Whatever comes of a step, its text arrives as far as it fits. -/
theorem leaves_action (settings : Settings) (step : Step) :
    Leaves (step.action settings) (step.intended settings) := by
  cases step with
  | print args => exact (writes_print args).leaves
  | printLine args => exact (writes_print args).bind_leaves (leaves_endLine settings)
  | endLine => exact leaves_endLine settings
  | flush => exact leaves_flush
  | settings => exact writes_pure.leaves

/-- A step leaves the part of its text that fits and keeps the settings and the sink's limit. -/
theorem perform_sink (w : LineWriter) (hsink : w.sink.Within) (step : Step) :
    ∃ flushes, (w.perform step).1 =
      { w with sink := { w.sink.receive (step.intended w.settings) with flushes } } := by
  obtain ⟨flushes, hstep⟩ := leaves_action w.settings step w.sink hsink
  refine ⟨flushes, ?_⟩
  rw [← hstep]
  rfl

/-- Whatever a sink held before, a run of steps leaves the texts of its steps behind it in
    order, as far as they fit. -/
theorem run_bytes (w : LineWriter) (hsink : w.sink.Within) (steps : List Step) :
    (w.run steps).1.sink.bytes =
      w.sink.cap (w.sink.bytes ++ steps.flatMap (Step.intended w.settings)) := by
  -- What one step leaves is what the next one starts from, capped by the same limit.
  induction steps generalizing w with
  | nil =>
    rw [List.flatMap_nil, List.append_nil, cap_eq_self hsink]
    rfl
  | cons step steps ih =>
    obtain ⟨flushes, hstep⟩ := perform_sink w hsink step
    have hrun : (w.run (step :: steps)).1 = ((w.perform step).1.run steps).1 := rfl
    have hwithin : (w.perform step).1.sink.Within := by
      rw [hstep]
      exact fun limit hlimit => @within_receive w.sink _ limit hlimit
    have hbytes : (w.perform step).1.sink.bytes =
        w.sink.cap (w.sink.bytes ++ step.intended w.settings) := by
      rw [hstep]
      exact bytes_receive
    have hcap : (w.perform step).1.sink.cap = w.sink.cap := by
      rw [hstep]
      rfl
    have hsettings : (w.perform step).1.settings = w.settings := by
      rw [hstep]
    rw [hrun, ih _ hwithin, hbytes, hcap, hsettings, cap_cap_append, List.flatMap_cons,
      List.append_assoc]

/-- No byte of what is printed gets lost, doubled or out of order.  A run of steps on a fresh
    sink leaves the texts of its steps, one behind the other, up to the limit of the sink,
    whichever of the steps fail; without a limit it leaves all of them.  In particular, printing
    to a sink that never fills up succeeds and leaves what `format` gives. -/
theorem run_conserves (settings : Settings) (failsFlush : Bool) (steps : List Step) :
    (∀ limit : Nat,
      (run ⟨settings, { limit := some limit, failsFlush }⟩ steps).1.sink.bytes =
        (steps.flatMap (Step.intended settings)).take limit) ∧
    (run ⟨settings, { limit := none, failsFlush }⟩ steps).1.sink.bytes =
      steps.flatMap (Step.intended settings) ∧
    (∀ (args : List Form) (kept : Array Char8) (flushes : Nat),
      outcome { limit := none, failsFlush, kept, flushes } (print args) =
        (none, { limit := none, failsFlush, kept := kept ++ (format args).toList, flushes })) := by
  refine ⟨?_, ?_, ?_⟩
  · intro limit
    apply run_bytes
    intro limit' _
    exact Nat.zero_le limit'
  · apply run_bytes
    intro limit' _
    exact Nat.zero_le limit'
  · intro args kept flushes
    -- Without a limit, every text fits, so printing succeeds.
    have hunlimited : ∀ limit : Nat, (none : Option Nat) ≠ some limit := by simp
    obtain ⟨hok, -⟩ := writes_print args { limit := none, failsFlush, kept, flushes }
      (fun limit hlimit => absurd hlimit (hunlimited limit))
    rw [outcome, hok fun limit hlimit => absurd hlimit (hunlimited limit)]
    refine Prod.ext rfl ?_
    simp only [receive, cap, bytes]
    congr 1
    apply Array.ext'
    rw [List.toList_toArray, Array.toList_appendList]

end LineWriter

end ValueText
