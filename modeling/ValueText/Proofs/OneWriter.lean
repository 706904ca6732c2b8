import ValueText.Console.Process
import ValueText.Proofs.LineRoundTrip
import ValueText.Proofs.SettingsLoading
import ValueText.Proofs.Utf8RoundTrip

/-!
# Calls act as one writer

A process that prints by single calls leaves what one line writer would leave, which is made
before the first call and kept.  Its settings are those that are looked up for the first call:
either all that the variables say or, if one of them is rejected, the default for all.  Later calls
print under the same settings even if the variables have changed since.

## Key results

- `Settings.ofEnvironment_unset`: a variable that is no text counts as missing
- `Process.agrees_of_loaded`, `Process.agrees_of_fresh`: calls do what the steps of a writer do
- `Process.calls_act_as_one_writer`: both, and what is printed
-/

namespace ValueText

/-! ## The settings of a process -/

namespace Environment

/-- The variables without one of them. -/
def unset (env : Environment) (name : String) : Environment := env.filter (·.1 != name)

/-- Whether a variable is missing or has a value that is no text. -/
def HoldsNoText (env : Environment) (name : String) : Prop :=
  ∀ entry, env.find? (·.1 == name) = some entry → ∀ s, Bytes.ofString s ≠ entry.2

variable {env : Environment} {name : String}

/-- A variable is looked up in vain if it is not set and if its bytes are no text. -/
theorem lookup_eq_none_iff : env.lookup name = none ↔ env.HoldsNoText name := by
  unfold lookup HoldsNoText
  cases env.find? (·.1 == name) with
  | none => simp
  | some entry =>
    simp only [Option.bind_some, Option.some.injEq, forall_eq']
    rw [Option.eq_none_iff_forall_ne_some]
    simp only [ne_eq, Utf8.decode?_eq_some_iff]

theorem find?_unset_self : (env.unset name).find? (·.1 == name) = none := by
  simp [unset, List.find?_filter]

theorem find?_unset_of_ne {other : String} (h : other ≠ name) :
    (env.unset name).find? (·.1 == other) = env.find? (·.1 == other) := by
  rw [unset, List.find?_filter]
  congr 1
  funext entry
  by_cases hentry : entry.1 = other
  · simp [hentry, h]
  · simp [hentry]

/-- A variable that is no text is not missed when it goes. -/
theorem lookup_unset (h : env.HoldsNoText name) : (env.unset name).lookup = env.lookup := by
  funext other
  by_cases hother : other = name
  · -- The variable itself was not found before either, since it is no text.
    subst hother
    rw [lookup_eq_none_iff.2 h, lookup, find?_unset_self]
    rfl
  · rw [lookup, lookup, find?_unset_of_ne hother]

end Environment

namespace Settings

variable {env : Environment}

/-- Unsetting a variable without a text makes no difference to the settings. -/
theorem ofEnvironment_unset {name : String} (h : env.HoldsNoText name) :
    ofEnvironment (env.unset name) = ofEnvironment env := by
  rw [ofEnvironment, ofEnvironment, Environment.lookup_unset h]

theorem ofEnvironment_of_ok {s : Settings} (h : ofVariables env.lookup = .ok s) :
    ofEnvironment env = s := by
  rw [ofEnvironment, h]

theorem ofEnvironment_of_error {e : SettingError} (h : ofVariables env.lookup = .error e) :
    ofEnvironment env = default := by
  rw [ofEnvironment, h]

end Settings

/-- Settings that are taken from the variables as a whole or not at all. -/
structure Settings.TakenWhole (env : Environment) (settings : Settings) : Prop where
  accepted : ∀ s, Settings.ofVariables env.lookup = .ok s → settings = s
  /-- Without an accepted whole, a line ends in a line feed and flushes. -/
  refused : ∀ e, Settings.ofVariables env.lookup = .error e →
    settings = { terminator := .lf, flushLines := true }
  /-- One rejected variable, and nothing is taken from the other one either. -/
  rejected : ∀ key value, env.lookup key = some value → Settings.RejectsAlone key value →
    settings = { terminator := .lf, flushLines := true }
  /-- A variable that is no text counts as missing. -/
  malformed : ∀ name, env.HoldsNoText name → Settings.ofEnvironment (env.unset name) = settings

/-- The settings of a process are taken whole or not at all. -/
theorem Settings.takenWhole (env : Environment) :
    Settings.TakenWhole env (Settings.ofEnvironment env) where
  accepted _ h := ofEnvironment_of_ok h
  refused _ h := ofEnvironment_of_error h
  rejected key value hvalue hrejects := by
    obtain ⟨e, he⟩ := exists_error_iff.2 ⟨key, value, hvalue, hrejects⟩
    exact ofEnvironment_of_error he
  malformed _ h := ofEnvironment_unset h

/-- A writer to a sink without a limit leaves the texts of its steps behind what was there. -/
theorem LineWriter.run_bytes_of_unlimited (settings : Settings) (sink : Sink)
    (h : sink.limit = none) (steps : List Step) :
    (run ⟨settings, sink⟩ steps).1.sink.bytes =
      sink.bytes ++ steps.flatMap (Step.intended settings) := by
  have hno (limit : Nat) : sink.limit ≠ some limit := by simp [h]
  rw [run_bytes _ fun limit hlimit => absurd hlimit (hno limit)]
  exact Sink.cap_eq_self fun limit hlimit => absurd hlimit (hno limit)

/-! ## Calls -/

namespace Process

open LineWriter (Step)

/-- The settings that the next call prints under. -/
def chosen (p : Process) : Settings := p.loaded.getD (Settings.ofEnvironment p.environment)

/-- Asking for the settings keeps them for later, and yields the ones that were kept. -/
theorem settings_eq (p : Process) :
    settings p = .ok p.chosen { p with loaded := some p.chosen } := by
  obtain ⟨environment, arguments, stdin, stdout, _ | loaded⟩ := p <;> rfl

/-- A call does what the step of a writer under the chosen settings does, and keeps the
    settings. -/
theorem call_eq (p : Process) (step : Step) :
    call step p =
      settle (LineWriter.outcome p.stdout (step.action p.chosen))
        { p with loaded := some p.chosen } := by
  -- The settings are kept before anything is written.
  have hwriter : writer p = .ok ⟨p.chosen, p.stdout⟩ { p with loaded := some p.chosen } := by
    show EStateM.bind settings _ p = _
    rw [EStateM.bind, settings_eq]
    rfl
  show EStateM.bind writer _ p = _
  rw [EStateM.bind, hwriter]

/-- The fault of a call whose writer fails. -/
def printFault (e : IoError) : Fault := .failure (.io e)

/-- A call fails as its writer does, and leaves the output that the writer leaves. -/
theorem result_settle (outcome : Option IoError × Sink) (p : Process) :
    (match settle outcome p with
      | .ok () next => (none, next)
      | .error fault next => (some fault, next)) =
    (outcome.1.map printFault, { p with stdout := outcome.2 }) := by
  obtain ⟨_ | e, stdout⟩ := outcome <;> rfl

/-- What one call comes to, in terms of a writer. -/
theorem perform_eq (p : Process) (c : Call) :
    p.perform c =
      let settings := chosen { p with environment := c.environment }
      let outcome := LineWriter.outcome p.stdout (c.step.action settings)
      (outcome.1.map printFault,
        { p with environment := c.environment, loaded := some settings, stdout := outcome.2 }) := by
  rw [perform, call_eq]
  exact result_settle _ _

/-- Calls do what the steps of one writer do: the same arrives, and the same of them fail. -/
structure Agrees (p : Process) (settings : Settings) (calls : List Call) : Prop where
  stdout : (p.runCalls calls).1.stdout =
    (LineWriter.run ⟨settings, p.stdout⟩ (calls.map Call.step)).1.sink
  faults : (p.runCalls calls).2 =
    (LineWriter.run ⟨settings, p.stdout⟩ (calls.map Call.step)).2.map
      fun report => report.failure.map printFault

/-- A call under the settings of a writer, and then calls that go on from there. -/
theorem Agrees.cons {p : Process} {settings : Settings} {c : Call} {calls : List Call}
    (hsettings : chosen { p with environment := c.environment } = settings)
    (h : (p.perform c).2.Agrees settings calls) : p.Agrees settings (c :: calls) := by
  have hperform := p.perform_eq c
  rw [hsettings] at hperform
  -- The first call keeps its settings, so the calls behind it go by the same ones.
  constructor
  · show ((p.perform c).2.runCalls calls).1.stdout = _
    rw [h.stdout, hperform]
    rfl
  · show (p.perform c).1 :: ((p.perform c).2.runCalls calls).2 = _
    rw [h.faults, hperform]
    rfl

/-- Once the settings are loaded, calls print under them in whatever environment. -/
theorem agrees_of_loaded {p : Process} {settings : Settings} (h : p.loaded = some settings)
    (calls : List Call) : p.Agrees settings calls := by
  induction calls generalizing p with
  | nil => exact ⟨rfl, rfl⟩
  | cons c calls ih =>
    -- The variables of this call are not looked at, and it leaves the settings loaded.
    have hsettings : chosen { p with environment := c.environment } = settings := by
      rw [chosen, h]
      rfl
    refine .cons hsettings (ih ?_)
    rw [perform_eq, hsettings]

/-- The first call loads the settings that all of them print under. -/
theorem agrees_of_fresh {p : Process} (h : p.loaded = none) (c : Call) (calls : List Call) :
    p.Agrees (Settings.ofEnvironment c.environment) (c :: calls) := by
  have hsettings : chosen { p with environment := c.environment } =
      Settings.ofEnvironment c.environment := by
    rw [chosen, h]
    rfl
  refine .cons hsettings (agrees_of_loaded ?_ calls)
  rw [perform_eq, hsettings]

/-- The faults of calls that agree with a writer to a sink that refuses nothing. -/
theorem Agrees.faults_eq_none {p : Process} {settings : Settings} {calls : List Call}
    (h : p.Agrees settings calls) (hstdout : p.stdout.RefusesNothing) :
    ∀ fault ∈ (p.runCalls calls).2, fault = none := by
  rw [h.faults]
  intro fault hfault
  obtain ⟨report, hreport, rfl⟩ := List.mem_map.1 hfault
  rw [LineWriter.run_failure _ hstdout _ report hreport]
  rfl

end Process

/-- The standard output after calls in one environment is that of a writer. -/
theorem StandardOutput.run_eq (env : Environment) (steps : List LineWriter.Step) :
    StandardOutput.run env steps =
      (LineWriter.run ⟨Settings.ofEnvironment env, {}⟩ steps).1.sink := by
  -- The settings are looked up for each call, but in the one environment they are the same.
  have hfold (sink : Sink) :
      steps.foldl (fun stdout step => (StandardOutput.call env stdout step).2) sink =
        (LineWriter.run ⟨Settings.ofEnvironment env, sink⟩ steps).1.sink := by
    induction steps generalizing sink with
    | nil => rfl
    | cons step steps ih => exact ih _
  exact hfold {}

namespace Process

/-- Calls in one environment leave what the same calls leave that load the settings anew each
    time. -/
theorem runCalls_stdout_eq (env : Environment) (steps : List LineWriter.Step) :
    (runCalls {} (steps.map (Call.mk env))).1.stdout = StandardOutput.run env steps := by
  rw [StandardOutput.run_eq]
  cases steps with
  | nil => rfl
  | cons step steps =>
    rw [List.map_cons, (agrees_of_fresh rfl _ _).stdout]
    simp [Function.comp_def]

/-- A process that prints by calls acts as one writer.  The settings of that writer are those of
    the variables at the first call, taken as a whole or not at all, and it is one for all calls,
    whatever the variables are later: what arrives on the standard output, and which calls fail,
    is what the same steps of the writer come to.  On an output without a limit, everything
    arrives that the writer leaves in memory; and if the output refuses nothing, no call fails. -/
theorem calls_act_as_one_writer (p : Process) (hp : p.loaded = none) (c : Call)
    (later : List Call) :
    Settings.TakenWhole c.environment (Settings.ofEnvironment c.environment) ∧
    p.Agrees (Settings.ofEnvironment c.environment) (c :: later) ∧
    (p.stdout.limit = none →
      (p.runCalls (c :: later)).1.stdout.bytes = p.stdout.bytes ++
        (LineWriter.run ⟨Settings.ofEnvironment c.environment, {}⟩
          (c.step :: later.map Call.step)).1.sink.bytes) ∧
    (p.stdout.RefusesNothing → ∀ fault ∈ (p.runCalls (c :: later)).2, fault = none) ∧
    ∀ (env : Environment) (steps : List LineWriter.Step),
      (runCalls {} (steps.map (Call.mk env))).1.stdout = StandardOutput.run env steps := by
  have hagrees := agrees_of_fresh hp c later
  refine ⟨Settings.takenWhole c.environment, hagrees, fun hlimit => ?_,
    hagrees.faults_eq_none, runCalls_stdout_eq⟩
  -- Without a limit, both outputs take all that the steps are to print.
  have hmemory := LineWriter.run_bytes_of_unlimited (Settings.ofEnvironment c.environment) {} rfl
    (c.step :: later.map Call.step)
  rw [hagrees.stdout, LineWriter.run_bytes_of_unlimited _ _ hlimit, hmemory]
  rfl

/-- An accepted terminator beside a rejected value for the flushing, and variables that are gone
    at the second call. -/
theorem calls_act_as_one_writer_half_rejected :
    let env : Environment :=
      [(Settings.terminatorKey, Bytes.ofString "crlf"), (Settings.flushKey, Bytes.ofString "maybe")]
    let calls : List Call := [⟨env, .printLine [form "a"]⟩, ⟨[], .endLine⟩]
    Settings.ofEnvironment env = { terminator := .lf, flushLines := true } ∧
    (runCalls {} calls).1.stdout.bytes =
      (LineWriter.run ⟨{ terminator := .lf, flushLines := true }, {}⟩
        [.printLine [form "a"], .endLine]).1.sink.bytes ∧
    ∀ fault ∈ (runCalls {} calls).2, fault = none := by
  intro env calls
  obtain ⟨htaken, -, hbytes, hfaults, -⟩ :=
    calls_act_as_one_writer {} rfl ⟨env, .printLine [form "a"]⟩ [⟨[], .endLine⟩]
  -- The rejected value takes the accepted terminator with it.
  have hvalue : env.lookup Settings.flushKey = some "maybe" := Utf8.decode?_eq_some_iff.2 rfl
  have hrejects : Settings.RejectsAlone Settings.flushKey "maybe" :=
    Settings.rejectsAlone_iff.2 (.inr ⟨rfl, _, rfl⟩)
  have hsettings := htaken.rejected _ _ hvalue hrejects
  refine ⟨hsettings, ?_, hfaults ⟨rfl, rfl⟩⟩
  have hwritten := hbytes rfl
  rw [hsettings] at hwritten
  exact hwritten

end Process

end ValueText
