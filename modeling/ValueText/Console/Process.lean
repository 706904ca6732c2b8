import ValueText.Console.Program
import ValueText.Failure

/-!
# Processes

A process looks its settings up when it first prints and prints under them from then on, whatever
becomes of its variables.  Nobody keeps a line writer: each call that prints makes one over the
standard output and gives it up again.

The program is spelled out in steps of a process.  Each step goes on from what the steps before it
left, and a step that has no result ends the process with what stands on the standard output by
then.

* `call`       prints by a line writer that is made for one step
* `runCalls`   calls in order, failures notwithstanding, while the variables change
* `carryOut`   the steps that a command takes, and `exit`, what they leave
-/

namespace ValueText

/-- Why a process ends early. -/
inductive Fault where
  | failure (e : Failure)
  /-- A request outside a view. -/
  | bounds (e : BoundsError)
  deriving DecidableEq, Repr

/-- What a running process has. -/
structure Process where
  environment : Environment := []
  /-- The arguments, the name of the program among them. -/
  arguments : List Bytes := []
  stdin : LineReader := .ofBytes []
  stdout : Sink := {}
  /-- The settings, once they have been looked up. -/
  loaded : Option Settings := none

namespace Process

/-- An action that may end the process. -/
abbrev Action := EStateM Fault Process

/-- The settings, which are looked up unless they have been already. -/
def settings : Action Settings := fun p =>
  match p.loaded with
  | some settings => .ok settings p
  | none =>
    let settings := Settings.ofEnvironment p.environment
    .ok settings { p with loaded := some settings }

/-- A line writer over the standard output. -/
def writer : Action LineWriter := do
  let settings ← settings
  return ⟨settings, (← get).stdout⟩

/-- Leaves the standard output as an action on it has left it, and fails as that did. -/
def settle (outcome : Option IoError × Sink) : Action Unit := fun p =>
  match outcome with
  | (none, stdout) => .ok () { p with stdout }
  | (some e, stdout) => .error (.failure (.io e)) { p with stdout }

/-- Performs a step of a line writer that is made for it. -/
def call (step : LineWriter.Step) : Action Unit := do
  let writer ← writer
  settle (LineWriter.outcome writer.sink (step.action writer.settings))

/-! ## Calls in a row -/

/-- A call, with the variables that the process has by then. -/
structure Call where
  environment : Environment
  step : LineWriter.Step

/-- What came of a call, and the process after it. -/
def perform (p : Process) (c : Call) : Option Fault × Process :=
  match call c.step { p with environment := c.environment } with
  | .ok () next => (none, next)
  | .error fault next => (some fault, next)

/-- Makes calls in order, failures notwithstanding. -/
def runCalls (p : Process) : List Call → Process × List (Option Fault)
  | [] => (p, [])
  | c :: calls =>
    let (fault, next) := p.perform c
    let (last, faults) := next.runCalls calls
    (last, fault :: faults)

/-! ## The program -/

/-- Writes bytes to the standard output as they are. -/
def emit (bytes : Bytes) : Action Unit := do
  settle (LineWriter.outcome (← get).stdout (Sink.write bytes))

/-- Ends the process unless there is a result. -/
def orEnd {ε α : Type} (fault : ε → Fault) : Except ε α → Action α
  | .ok x => pure x
  | .error e => throw (fault e)

/-- Reads a line of the standard input. -/
def readLine : Action Text := do
  let (result, stdin) := (← get).stdin.readLine
  modify fun p => { p with stdin }
  let line ← orEnd (fun e => .failure (.io e)) result
  return Text.ofBytes line

/-- The argument at an index. -/
def argument (index : Nat) : Action Text := do
  orEnd .bounds ((Text.ofArguments (← get).arguments).get index)

/-- Reads the number that a text begins with. -/
def readNumber (kind : NumberType) (text : Text) : Action Form :=
  orEnd (fun e => .failure (.number e)) (Program.readNumber kind text)

/-- Carries out a command. -/
def carryOut : Command → Action Unit
  | .showHelp => emit (Program.line Program.helpText)
  | .showVersion => emit (Program.line Program.versionText)
  | .showArguments => do
    let arguments := Text.ofArguments (← get).arguments
    call (.printLine [form arguments])
  | .args rest => do
    let names := Block.ofList (rest.map Text.ofBytes)
    let program ← argument 0
    call (.printLine [form "program: ", form program])
    call (.printLine [form "args: ", form names])
  | .echo prompt => do
    call (.print [form prompt])
    call .flush
    let line ← readLine
    call (.printLine [form line])
  | .parse kind text => do
    let number ← readNumber kind (Text.ofBytes text)
    call (.printLine [number])

/-- A process at the start of a program. -/
def start (env : Environment) (arguments : List Bytes) (stdin : Bytes) : Process where
  environment := env
  arguments
  stdin := .ofBytes stdin

/-- What an action leaves of a process. -/
def exit (p : Process) (action : Action Unit) : Exit :=
  match action p with
  | .ok () last => ⟨0, last.stdout.bytes⟩
  | .error (.failure _) last => ⟨1, last.stdout.bytes⟩
  | .error (.bounds _) last => ⟨101, last.stdout.bytes⟩

end Process

end ValueText
