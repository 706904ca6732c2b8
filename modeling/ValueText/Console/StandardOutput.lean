import ValueText.Console.LineWriter

/-!
# Printing to the standard output of a process

A process prints to its standard output without keeping a line writer.  Each call makes one,
under the settings of the process, and gives it up again.
-/

namespace ValueText.StandardOutput

/-- One call: a line writer is made for it over the standard output. -/
def call (env : Environment) (stdout : Sink) (step : LineWriter.Step) : Option IoError × Sink :=
  let writer : LineWriter := ⟨Settings.ofEnvironment env, stdout⟩
  LineWriter.outcome writer.sink (step.action writer.settings)

/-- The standard output after a sequence of calls. -/
def run (env : Environment) (steps : List LineWriter.Step) : Sink :=
  steps.foldl (fun stdout step => (call env stdout step).2) {}

end ValueText.StandardOutput
