import ValueText.Proofs.SinkConservation

/-!
# What comes of each step

What a step of a line writer reports depends on nothing but the room that is left in the sink.
The step fails for want of room exactly if its text is longer than that.  If all of its text was
written and the step is one that flushes, then it flushes once, behind its last byte, and fails
exactly if the flush does.  The room that the next step finds is what the text of this one left.

The order of bytes and flushes cannot be told from a sink afterwards.  It is recorded on the way:
the steps are said for any destination that can be flushed (`Step.actionOn`), one of which is a
sink with a record of what happened to it.

## Key results

- `Receiver.writesThen_bind`: one text after another, on a sink with or without a record
- `LineWriter.course_eq_forecast`, `LineWriter.outcome_eq_forecast`: what happens in a step, and
  what it leaves, by the room that is left
- `LineWriter.run_exact`: what comes of the steps of a run, by the lengths of their texts
-/

namespace ValueText

/-! ## Recording -/

/-- What happens to a sink: it keeps a byte, or it is asked to flush, be it in vain. -/
inductive SinkEvent where
  | byte (c : Char8)
  | flush
  deriving DecidableEq, Repr

/-- The byte that was kept, if it is one. -/
def SinkEvent.byte? : SinkEvent → Option Char8
  | .byte c => some c
  | .flush => none

theorem SinkEvent.filterMap_byte (bytes : Bytes) :
    (bytes.map SinkEvent.byte).filterMap SinkEvent.byte? = bytes := by
  rw [List.filterMap_map]
  exact List.filterMap_some

theorem SinkEvent.count_flush_byte (bytes : Bytes) :
    (bytes.map SinkEvent.byte).count .flush = 0 := by
  simp [List.count_eq_zero]

/-- A sink with a record of what happened to it. -/
structure Recorder where
  sink : Sink
  events : List SinkEvent := []

/-- An action on a sink under record. -/
abbrev Recording := EStateM IoError Recorder

/-- Performs an action and records what happened to the sink, also if the action fails. -/
def Recording.ofAction (events : Sink → Sink → List SinkEvent) (action : Sink.Action Unit) :
    Recording Unit := fun r =>
  match action r.sink with
  | .ok () sink => .ok () ⟨sink, r.events ++ events r.sink sink⟩
  | .error e sink => .error e ⟨sink, r.events ++ events r.sink sink⟩

/-- The bytes that a sink has kept since some time before. -/
def SinkEvent.kept (before after : Sink) : List SinkEvent :=
  (after.bytes.drop before.bytes.length).map .byte

instance : Out Recording where
  put piece := .ofAction SinkEvent.kept (Sink.write piece)
  putFragments pieces := .ofAction SinkEvent.kept (Sink.writeAll pieces)

def Recording.flush : Recording Unit := .ofAction (fun _ _ => [.flush]) Sink.flush

namespace Sink

variable {sink : Sink} {s t : Bytes}

/-- The part of a text that fits. -/
def taken (sink : Sink) (text : Bytes) : Bytes := text.take (sink.room text.length)

/-- A sink holds what it held and the bytes that it took. -/
theorem bytes_receive_eq (hsink : sink.Within) :
    (sink.receive s).bytes = sink.bytes ++ sink.taken s := by
  rw [bytes_receive, cap_append hsink, taken]

/-- The bytes that a sink took are what it has in addition. -/
theorem kept_receive (hsink : sink.Within) :
    SinkEvent.kept sink (sink.receive s) = (sink.taken s).map .byte := by
  rw [SinkEvent.kept, bytes_receive_eq hsink, List.drop_left]

/-- A text that fits is taken as a whole. -/
theorem taken_of_fits (h : sink.Fits s) : sink.taken s = s := by
  rw [taken, room_of_fits h, List.take_length]

/-- Behind a text that fits, the sink takes what still fits. -/
theorem taken_append (hsink : sink.Within) (h : sink.Fits s) :
    sink.taken (s ++ t) = s ++ (sink.receive s).taken t := by
  have hbytes : sink.bytes ++ sink.taken (s ++ t) =
      sink.bytes ++ (s ++ (sink.receive s).taken t) := by
    rw [← bytes_receive_eq hsink, receive_append h, bytes_receive_eq within_receive,
      bytes_receive_eq hsink, taken_of_fits h, List.append_assoc]
  exact List.append_cancel_left hbytes

/-- Behind a text that does not fit, nothing more is taken. -/
theorem taken_append_of_not_fits (hsink : sink.Within) (h : ¬sink.Fits s) :
    sink.taken (s ++ t) = sink.taken s := by
  have hbytes : sink.bytes ++ sink.taken (s ++ t) = sink.bytes ++ sink.taken s := by
    rw [← bytes_receive_eq hsink, receive_append_of_not_fits h, bytes_receive_eq hsink]
  exact List.append_cancel_left hbytes

/-! ### The room that is left -/

/-- The number of bytes that still fit, if there is a limit. -/
def roomLeft (sink : Sink) : Option Nat := sink.limit.map (· - sink.bytes.length)

/-- The room for a text, if there is less of it than the text needs. -/
def shortage (room : Option Nat) (text : Bytes) : Option Nat := room.filter (· < text.length)

/-- There is a shortage if the text is longer than the room. -/
theorem shortage_eq_some_iff {room : Option Nat} {n : Nat} :
    shortage room s = some n ↔ room = some n ∧ n < s.length := by
  simp [shortage]

/-- A text fits exactly if it is not longer than the room that is left. -/
theorem fits_iff_shortage (hsink : sink.Within) :
    sink.Fits s ↔ shortage sink.roomLeft s = none := by
  unfold Fits shortage roomLeft
  unfold Within at hsink
  -- Without a limit everything fits; with one, the room is what is left below it.
  cases hlimit : sink.limit with
  | none => simp
  | some limit =>
    have := hsink limit hlimit
    simp
    omega

/-- If there is not enough room then what is left of it is used up. -/
theorem taken_of_shortage {n : Nat} (h : shortage sink.roomLeft s = some n) :
    sink.taken s = s.take n := by
  have hsize : sink.bytes.length = sink.kept.size := Array.length_toList
  obtain ⟨hroom, hlt⟩ := shortage_eq_some_iff.1 h
  -- A shortage is of a sink with a limit, and there the room is what it takes.
  obtain ⟨limit, hlimit, hleft⟩ := Option.map_eq_some_iff.1 hroom
  rw [taken, room, hlimit]
  dsimp only
  congr 1
  omega

/-- A text uses up as much room as it is long, or all of it. -/
theorem roomLeft_receive :
    (sink.receive s).roomLeft = sink.roomLeft.map (· - s.length) := by
  unfold roomLeft
  rw [bytes_receive, cap]
  show sink.limit.map _ = _
  -- With a limit, the sink is cut off there, so the room ends at zero.
  cases hlimit : sink.limit with
  | none => rfl
  | some limit =>
    simp
    omega

end Sink

/-- A state that a sink is part of, and that takes texts as the sink does. -/
structure Receiver (σ : Type) where
  sink : σ → Sink
  receive : σ → Bytes → σ
  sink_receive : ∀ st text, sink (receive st text) = (sink st).receive text
  receive_nil : ∀ st, (sink st).Within → receive st [] = st
  receive_append : ∀ st s t, (sink st).Within → (sink st).Fits s →
    receive st (s ++ t) = receive (receive st s) t
  receive_append_of_not_fits : ∀ st s t, (sink st).Within → ¬(sink st).Fits s →
    receive st (s ++ t) = receive st s

namespace Receiver

variable {σ : Type} {R : Receiver σ} {finish a b : EStateM IoError σ Unit} {s t : Bytes}

/-- An action that writes a text and then does something else: what fits of the text arrives, and
    unless that is all, the action fails and leaves out the rest. -/
def WritesThen (R : Receiver σ) (finish action : EStateM IoError σ Unit) (text : Bytes) : Prop :=
  ∀ st, (R.sink st).Within →
    ((R.sink st).Fits text → action st = finish (R.receive st text)) ∧
    (¬(R.sink st).Fits text → action st = .error .noRoom (R.receive st text))

/-- An action that writes nothing is its own end. -/
theorem writesThen_self : R.WritesThen finish finish [] := by
  intro st hsink
  rw [R.receive_nil st hsink]
  exact ⟨fun _ => rfl, fun h => absurd (Sink.fits_nil hsink) h⟩

/-- An action that ends a text goes on behind one that has written the text before it. -/
theorem writesThen_bind (ha : R.WritesThen (pure ()) a s) (hb : R.WritesThen finish b t) :
    R.WritesThen finish (a >>= fun _ => b) (s ++ t) := by
  -- By whether the first text fits, for that decides whether the second action is run at all.
  intro st hsink
  obtain ⟨hok, herror⟩ := ha st hsink
  by_cases hs : (R.sink st).Fits s
  · -- All of `s` arrived, and `b` goes on from there.
    have hrun : (a >>= fun _ => b) st = b (R.receive st s) := by
      show EStateM.bind a (fun _ => b) st = _
      rw [EStateM.bind, hok hs]
      rfl
    have hwithin : (R.sink (R.receive st s)).Within := by
      rw [R.sink_receive]
      exact Sink.within_receive
    rw [hrun, Sink.fits_append hs, R.receive_append st s t hsink hs, ← R.sink_receive]
    exact hb (R.receive st s) hwithin
  · -- `b` is skipped, and the sink is as full as `s ++ t` would have left it.
    have hrun : (a >>= fun _ => b) st = .error .noRoom (R.receive st s) := by
      show EStateM.bind a (fun _ => b) st = _
      rw [EStateM.bind, herror hs]
    rw [hrun, R.receive_append_of_not_fits st s t hsink hs]
    exact ⟨fun hfits => absurd hfits (Sink.not_fits_append hs), fun _ => rfl⟩

/-- A sink by itself. -/
def plain : Receiver Sink where
  sink := id
  receive := Sink.receive
  sink_receive _ _ := rfl
  receive_nil _ h := Sink.receive_nil h
  receive_append _ _ _ _ h := Sink.receive_append h
  receive_append_of_not_fits _ _ _ _ h := Sink.receive_append_of_not_fits h

/-- A sink under record: of a text, it records the bytes that fit. -/
def recorded : Receiver Recorder where
  sink := Recorder.sink
  receive r text := ⟨r.sink.receive text, r.events ++ (r.sink.taken text).map .byte⟩
  sink_receive _ _ := rfl
  receive_nil r h := by simp [Sink.receive_nil h, Sink.taken]
  receive_append r s t hsink h := by
    simp [Sink.receive_append h, Sink.taken_append hsink h, Sink.taken_of_fits h]
  receive_append_of_not_fits r s t hsink h := by
    simp [Sink.receive_append_of_not_fits h, Sink.taken_append_of_not_fits hsink h]

/-- Printing writes the text, and nothing else. -/
theorem plain_carries : Carries (plain.WritesThen (pure ())) := Sink.carries_writes

/-- What writes a text without a record also writes it under record. -/
theorem recorded_ofAction {action : Sink.Action Unit} (h : Sink.Writes action s) :
    recorded.WritesThen (pure ()) (Recording.ofAction SinkEvent.kept action) s := by
  intro r hsink
  obtain ⟨hok, herror⟩ := h r.sink hsink
  -- The record is made of what the sink has in addition, so it is the bytes that it took.
  have hkept : SinkEvent.kept r.sink (r.sink.receive s) = (r.sink.taken s).map .byte :=
    Sink.kept_receive hsink
  constructor
  · intro hfits
    simp only [Recording.ofAction, hok hfits, hkept]
    rfl
  · intro hfits
    simp only [Recording.ofAction, herror hfits, hkept]
    rfl

/-- Printing records the bytes that fit, and nothing else. -/
theorem recorded_carries : Carries (recorded.WritesThen (pure ())) where
  pure := writesThen_self
  bind := writesThen_bind
  put piece := recorded_ofAction (Sink.writes_write piece)
  putFragments pieces := recorded_ofAction (Sink.writes_writeAll pieces)

end Receiver

namespace LineWriter

open Receiver

/-! ## One step -/

/-- What a step does to anything that takes bytes and can be flushed. -/
def Step.actionOn {m : Type → Type} [Monad m] [Out m] (flush : m Unit) (settings : Settings) :
    Step → m Unit
  | .print args => renderAll args
  | .printLine args => do
    renderAll args
    Out.put settings.terminator.bytes
    if settings.flushLines then flush
  | .endLine => do
    Out.put settings.terminator.bytes
    if settings.flushLines then flush
  | .flush => flush
  | .settings => pure ()

/-- The steps of a line writer are these steps on a sink. -/
theorem Step.actionOn_flush (settings : Settings) (step : Step) :
    step.actionOn Sink.flush settings = step.action settings := by
  cases step <;> rfl

/-- Whether a step flushes the sink once its text is written. -/
def Step.flushes (settings : Settings) : Step → Bool
  | .print _ | .settings => false
  | .printLine _ | .endLine => settings.flushLines
  | .flush => true

/-- A step writes its text and then flushes, if it is one that flushes. -/
theorem writesThen_actionOn {σ : Type} {R : Receiver σ} [Out (EStateM IoError σ)]
    (h : Carries (R.WritesThen (pure ()))) (flush : EStateM IoError σ Unit) (settings : Settings)
    (step : Step) :
    R.WritesThen (if step.flushes settings then flush else pure ())
      (step.actionOn flush settings) (step.intended settings) := by
  have hprint (args : List Form) :
      R.WritesThen (pure ()) (renderAll args) (format args).toList := by
    rw [toList_format]
    exact carries_renderAll h args
  -- A line ends in its terminator, and then in a flush if the settings ask for one.
  have hline := writesThen_bind (h.put settings.terminator.bytes)
    (@writesThen_self σ R (if settings.flushLines then flush else pure ()))
  rw [List.append_nil] at hline
  cases step with
  | print args => exact hprint args
  | printLine args => exact writesThen_bind (hprint args) hline
  | endLine => exact hline
  | flush => exact writesThen_self
  | settings => exact writesThen_self

/-- What happens in a step: its failure, and what is recorded. -/
structure Course where
  failure : Option IoError
  events : List SinkEvent
  deriving DecidableEq, Repr

/-- The number of successful flushes. -/
def Course.flushes (failsFlush : Bool) (c : Course) : Nat :=
  if failsFlush then 0 else c.events.count .flush

/-- What happens in a step under record. -/
def course (w : LineWriter) (step : Step) : Course :=
  match step.actionOn Recording.flush w.settings ⟨w.sink, []⟩ with
  | .ok () r => ⟨none, r.events⟩
  | .error e r => ⟨some e, r.events⟩

/-- What is to happen in a step where so many bytes are left, if there is a limit. -/
def Step.forecast (settings : Settings) (failsFlush : Bool) (room : Option Nat) (step : Step) :
    Course :=
  let text := step.intended settings
  match Sink.shortage room text with
  | some n => ⟨some .noRoom, (text.take n).map .byte⟩
  | none =>
    ⟨if step.flushes settings && failsFlush then some .flushFailed else none,
      text.map .byte ++ if step.flushes settings then [.flush] else []⟩

/-- The report on a step in which this happened. -/
def Course.report (settings : Settings) (failsFlush : Bool) (step : Step) (c : Course) :
    Report where
  failure := c.failure
  settings := match step with
    | .settings => some settings
    | _ => none
  out := c.events.filterMap SinkEvent.byte?
  flushes := c.flushes failsFlush

variable {w : LineWriter} {step : Step}

/-- What happens in a step depends on the room that is left. -/
theorem course_eq_forecast (hsink : w.sink.Within) :
    w.course step = step.forecast w.settings w.sink.failsFlush w.sink.roomLeft := by
  obtain ⟨hok, herror⟩ :=
    writesThen_actionOn recorded_carries Recording.flush w.settings step ⟨w.sink, []⟩ hsink
  have hfits : w.sink.Fits (step.intended w.settings) ↔ _ := Sink.fits_iff_shortage hsink
  unfold course Step.forecast
  dsimp only
  -- By what is forecast: there is room, or only `n` bytes of it.
  cases hshortage : Sink.shortage w.sink.roomLeft (step.intended w.settings) with
  | none =>
    have htaken := Sink.taken_of_fits (hfits.2 hshortage)
    rw [hok (hfits.2 hshortage)]
    -- The record ends with the flush if there is one, whether or not that fails.
    by_cases hflushes : step.flushes w.settings
    · rw [if_pos hflushes]
      by_cases hfails : w.sink.failsFlush <;>
        simp [Recording.flush, Recording.ofAction, Sink.flush, recorded, Sink.receive, hfails,
          htaken, hflushes]
    · rw [if_neg hflushes]
      simp [recorded, htaken, hflushes, pure, EStateM.pure]
  | some n =>
    rw [herror (mt hfits.1 (by simp [hshortage]))]
    simp [recorded, Sink.taken_of_shortage hshortage]

/-- What a step leaves depends on the room that is left as well. -/
theorem outcome_eq_forecast (hsink : w.sink.Within) :
    let c := step.forecast w.settings w.sink.failsFlush w.sink.roomLeft
    outcome w.sink (step.action w.settings) =
      (c.failure, { w.sink.receive (step.intended w.settings) with
        flushes := w.sink.flushes + c.flushes w.sink.failsFlush }) := by
  obtain ⟨hok, herror⟩ := writesThen_actionOn plain_carries Sink.flush w.settings step w.sink hsink
  have hfits : w.sink.Fits (step.intended w.settings) ↔ _ := Sink.fits_iff_shortage hsink
  unfold outcome Step.forecast Course.flushes
  rw [← Step.actionOn_flush]
  dsimp only
  -- By what is forecast: there is room, or only `n` bytes of it.
  cases hshortage : Sink.shortage w.sink.roomLeft (step.intended w.settings) with
  | none =>
    rw [hok (hfits.2 hshortage)]
    by_cases hflushes : step.flushes w.settings
    · rw [if_pos hflushes]
      by_cases hfails : w.sink.failsFlush <;>
        simp [plain, Sink.flush, Sink.receive, hfails, hflushes, SinkEvent.count_flush_byte]
    · rw [if_neg hflushes]
      simp [plain, Sink.receive, hflushes, pure, EStateM.pure, SinkEvent.count_flush_byte]
  | some n =>
    rw [herror (mt hfits.1 (by simp [hshortage]))]
    simp only [plain, Sink.receive, SinkEvent.count_flush_byte, ite_self, Nat.add_zero]

/-- A step that has all the room it needs keeps all of its text. -/
theorem bytes_forecast_of_room {settings : Settings} {failsFlush : Bool} {room : Option Nat}
    (h : Sink.shortage room (step.intended settings) = none) :
    (step.forecast settings failsFlush room).events.filterMap SinkEvent.byte? =
      step.intended settings := by
  unfold Step.forecast
  dsimp only
  rw [h]
  dsimp only
  -- A flush behind the bytes is an event, but none of the bytes.
  rw [List.filterMap_append, SinkEvent.filterMap_byte]
  split
  next => exact List.append_nil _
  next => exact List.append_nil _

/-- The bytes of a step are those that the sink takes. -/
theorem bytes_forecast (hsink : w.sink.Within) :
    (step.forecast w.settings w.sink.failsFlush w.sink.roomLeft).events.filterMap SinkEvent.byte? =
      w.sink.taken (step.intended w.settings) := by
  -- Either all of the text is kept or as much as there is room for.
  cases hshortage : Sink.shortage w.sink.roomLeft (step.intended w.settings) with
  | none =>
    rw [bytes_forecast_of_room hshortage,
      Sink.taken_of_fits ((Sink.fits_iff_shortage hsink).2 hshortage)]
  | some n =>
    unfold Step.forecast
    dsimp only
    rw [hshortage, Sink.taken_of_shortage hshortage]
    exact SinkEvent.filterMap_byte _

/-- A step reports what happens in it. -/
theorem perform_report (hsink : w.sink.Within) :
    (w.perform step).2 =
      (step.forecast w.settings w.sink.failsFlush w.sink.roomLeft).report w.settings
        w.sink.failsFlush step := by
  have hsize : w.sink.bytes.length = w.sink.kept.size := Array.length_toList
  -- What a report calls its output is what the sink has in addition.
  have hout : (w.sink.receive (step.intended w.settings)).bytes.drop w.sink.kept.size =
      w.sink.taken (step.intended w.settings) := by
    rw [Sink.bytes_receive_eq hsink, ← hsize, List.drop_left]
  unfold perform Course.report
  rw [outcome_eq_forecast hsink, bytes_forecast hsink, ← hout]
  cases step <;> simp only [Sink.bytes, Nat.add_sub_cancel_left]

/-- The next step finds the same settings and the same sink, with less room. -/
theorem perform_next (hsink : w.sink.Within) (step : Step) :
    (w.perform step).1.settings = w.settings ∧ (w.perform step).1.sink.Within ∧
    (w.perform step).1.sink.failsFlush = w.sink.failsFlush ∧
    (w.perform step).1.sink.roomLeft =
      w.sink.roomLeft.map (· - (step.intended w.settings).length) := by
  -- A step changes nothing of the sink but its bytes and its count of flushes.
  obtain ⟨flushes, hstep⟩ := perform_sink w hsink step
  rw [hstep]
  exact ⟨rfl, fun limit hlimit => @Sink.within_receive w.sink _ limit hlimit, rfl,
    Sink.roomLeft_receive⟩

/-! ## Runs -/

/-- What is to happen in a run of steps, from the room that is left at its beginning. -/
def forecasts (settings : Settings) (failsFlush : Bool) : Option Nat → List Step → List Course
  | _, [] => []
  | room, step :: steps =>
    step.forecast settings failsFlush room ::
      forecasts settings failsFlush (room.map (· - (step.intended settings).length)) steps

/-- What happens in a run of steps under record. -/
def courses (w : LineWriter) : List Step → List Course
  | [] => []
  | step :: steps => w.course step :: (w.perform step).1.courses steps

/-- What happens under record in a run is what is forecast. -/
theorem courses_eq_forecasts (hsink : w.sink.Within) (steps : List Step) :
    w.courses steps = forecasts w.settings w.sink.failsFlush w.sink.roomLeft steps := by
  -- By the steps, over all writers, since each step leaves another one.
  induction steps generalizing w with
  | nil => rfl
  | cons step steps ih =>
    obtain ⟨hsettings, hwithin, hfails, hroom⟩ := perform_next hsink step
    rw [courses, forecasts, course_eq_forecast hsink, ih hwithin, hsettings, hfails, hroom]

/-- What a run reports is what is forecast. -/
theorem run_reports (hsink : w.sink.Within) (steps : List Step) :
    (w.run steps).2 =
      List.zipWith (Course.report w.settings w.sink.failsFlush) steps
        (forecasts w.settings w.sink.failsFlush w.sink.roomLeft steps) := by
  -- As for what is recorded, step by step.
  induction steps generalizing w with
  | nil => rfl
  | cons step steps ih =>
    obtain ⟨hsettings, hwithin, hfails, hroom⟩ := perform_next hsink step
    have hrun : (w.run (step :: steps)).2 =
        (w.perform step).2 :: ((w.perform step).1.run steps).2 := rfl
    rw [hrun, forecasts, List.zipWith_cons_cons, perform_report hsink, ih hwithin, hsettings,
      hfails, hroom]

/-- A run keeps the settings, and its texts use up the room. -/
theorem run_next (hsink : w.sink.Within) (steps : List Step) :
    (w.run steps).1.settings = w.settings ∧ (w.run steps).1.sink.Within ∧
    (w.run steps).1.sink.failsFlush = w.sink.failsFlush ∧
    (w.run steps).1.sink.roomLeft =
      w.sink.roomLeft.map (· - (steps.flatMap (Step.intended w.settings)).length) := by
  induction steps generalizing w with
  | nil => exact ⟨rfl, hsink, rfl, Option.map_id'.symm⟩
  | cons step steps ih =>
    obtain ⟨hsettings, hwithin, hfails, hroom⟩ := perform_next hsink step
    have hrun : (w.run (step :: steps)).1 = ((w.perform step).1.run steps).1 := rfl
    rw [hrun, ← hsettings, ← hfails]
    -- What the first step and the others use up, they use up together.
    obtain ⟨hsettings', hwithin', hfails', hroom'⟩ := ih hwithin
    refine ⟨hsettings', hwithin', hfails', ?_⟩
    rw [hroom', hroom, Option.map_map, List.flatMap_cons, hsettings]
    congr 1
    funext room
    show room - _ - _ = room - _
    rw [List.length_append]
    omega

/-- A step fails as it is forecast to. -/
theorem perform_failure (hsink : w.sink.Within) :
    (w.perform step).2.failure =
      (step.forecast w.settings w.sink.failsFlush w.sink.roomLeft).failure := by
  rw [perform_report hsink]
  rfl

/-- A step fails for want of room if its text is longer than what is left. -/
theorem failure_eq_noRoom_iff (hsink : w.sink.Within) (step : Step) :
    (w.perform step).2.failure = some .noRoom ↔
      ∃ n, w.sink.roomLeft = some n ∧ n < (step.intended w.settings).length := by
  -- The forecast is for a shortage exactly if there is a limit and the text goes beyond it.
  simp only [perform_failure hsink, Step.forecast, ← Sink.shortage_eq_some_iff]
  cases Sink.shortage w.sink.roomLeft (step.intended w.settings) with
  | none => simp
  | some n => simp

/-- A step fails for its flush if that was not so and the flush fails. -/
theorem failure_eq_flushFailed_iff (hsink : w.sink.Within) (step : Step) :
    (w.perform step).2.failure = some .flushFailed ↔
      (w.perform step).2.failure ≠ some .noRoom ∧ step.flushes w.settings ∧ w.sink.failsFlush := by
  rw [perform_failure hsink, Step.forecast]
  cases Sink.shortage w.sink.roomLeft (step.intended w.settings) with
  | none => simp
  | some n => simp

/-- A step that does not fail for want of room has left all of its text in the sink. -/
theorem out_eq_intended (hsink : w.sink.Within)
    (h : (w.perform step).2.failure ≠ some .noRoom) :
    (w.perform step).2.out = step.intended w.settings := by
  -- A step is short of room exactly if it fails for that reason.
  have hshortage : Sink.shortage w.sink.roomLeft (step.intended w.settings) = none := by
    rw [perform_failure hsink, Step.forecast] at h
    cases hshortage : Sink.shortage w.sink.roomLeft (step.intended w.settings) with
    | none => rfl
    | some n => simp [hshortage] at h
  rw [perform_report hsink]
  exact bytes_forecast_of_room hshortage

/-- In a sink without any room, what has a text fails and what has none prints. -/
theorem failure_of_full (hsink : w.sink.Within) (hfull : w.sink.roomLeft = some 0) :
    (∀ step, step.intended w.settings ≠ [] → (w.perform step).2.failure = some .noRoom) ∧
    ∀ args, (format args).toList = [] → (w.perform (.print args)).2.failure = none := by
  constructor
  · intro step htext
    rw [failure_eq_noRoom_iff hsink step]
    exact ⟨0, hfull, List.length_pos_iff.2 htext⟩
  -- An empty text fits the full sink, and printing does not flush.
  · intro args htext
    have hintended : Step.intended w.settings (.print args) = [] := htext
    rw [perform_failure hsink, Step.forecast, hintended, hfull]
    rfl

/-- Printing no values as a line is ending a line. -/
theorem perform_printLine_nil : w.perform (.printLine []) = w.perform .endLine := rfl

/-- What comes of each step in a run is known from the lengths of the texts before it.  What
    happens under record is what is forecast: a step whose text is not longer than the room that is
    left keeps all of it, then flushes once if it is one that flushes, and fails if that fails; any
    other step keeps what fits, fails for want of room and does not flush.  The reports say just
    that.  So once the sink is full, what has a text fails and what has none prints; and printing
    no values as a line is ending a line. -/
theorem run_exact (settings : Settings) (limit : Option Nat) (failsFlush : Bool)
    (steps : List Step) :
    let fresh : LineWriter := ⟨settings, { limit, failsFlush }⟩
    (∀ step : Step, step.actionOn Sink.flush settings = step.action settings) ∧
    fresh.courses steps = forecasts settings failsFlush limit steps ∧
    (fresh.run steps).2 = List.zipWith (Course.report settings failsFlush) steps
      (forecasts settings failsFlush limit steps) ∧
    let w := (fresh.run steps).1
    (∀ step, (w.perform step).2.failure = some .noRoom ↔
      ∃ n, limit = some n ∧ n - (steps.flatMap (Step.intended settings)).length <
        (step.intended settings).length) ∧
    (∀ step, (w.perform step).2.failure = some .flushFailed ↔
      (w.perform step).2.failure ≠ some .noRoom ∧ step.flushes settings ∧ failsFlush) ∧
    (∀ step, (w.perform step).2.failure ≠ some .noRoom →
      (w.perform step).2.out = step.intended settings) ∧
    (w.sink.roomLeft = some 0 →
      (∀ step, step.intended settings ≠ [] → (w.perform step).2.failure = some .noRoom) ∧
      ∀ args, (format args).toList = [] → (w.perform (.print args)).2.failure = none) ∧
    w.perform (.printLine []) = w.perform .endLine := by
  intro fresh
  have hfresh : fresh.sink.Within := fun _ _ => Nat.zero_le _
  have hroom : fresh.sink.roomLeft = limit := by
    show limit.map _ = limit
    simp [fresh, Sink.bytes]
  -- A fresh writer is within its limit, and every run leaves one that is, with less room.
  have hcourses := courses_eq_forecasts hfresh steps
  have hreports := run_reports hfresh steps
  obtain ⟨hsettings, hsink, hfails, hleft⟩ := run_next hfresh steps
  rw [hroom] at hcourses hreports hleft
  have hnoRoom := failure_eq_noRoom_iff hsink
  rw [hsettings, hleft] at hnoRoom
  refine ⟨Step.actionOn_flush settings, hcourses, hreports, ?_, ?_, ?_, ?_, perform_printLine_nil⟩
  · intro step
    rw [hnoRoom]
    cases limit <;> simp [fresh]
  · intro step
    have hflush := failure_eq_flushFailed_iff hsink step
    rwa [hsettings, hfails] at hflush
  · intro step h
    have hout := out_eq_intended hsink h
    rwa [hsettings] at hout
  · intro hfull
    have hstep := failure_of_full hsink hfull
    rwa [hsettings] at hstep

/-- A sink that is full between the two bytes of a terminator, and whose flush would fail. -/
theorem run_exact_cut_terminator :
    let settings : Settings := { terminator := .crlf }
    let steps : List Step := [.printLine [.chars [97, 98]]]
    let fresh : LineWriter := ⟨settings, { limit := some 3, failsFlush := true }⟩
    let w := (fresh.run steps).1
    (fresh.run steps).2 = [⟨some .noRoom, none, [97, 98, 13], 0⟩] ∧
    w.sink.roomLeft = some 0 ∧ (w.perform .endLine).2.failure = some .noRoom ∧
    (w.perform (.print [.chars []])).2.failure = none := by
  intro settings steps fresh w
  obtain ⟨-, -, hreports, -, -, -, hfull, -⟩ := run_exact settings (some 3) true steps
  -- Two letters and the first byte of the terminator fill the sink.
  have hroom : w.sink.roomLeft = some 0 :=
    (run_next (fun _ _ => Nat.zero_le _ : fresh.sink.Within) steps).2.2.2
  refine ⟨hreports, hroom, (hfull hroom).1 .endLine ?_, (hfull hroom).2 _ rfl⟩
  exact List.cons_ne_nil _ _

end LineWriter

end ValueText
