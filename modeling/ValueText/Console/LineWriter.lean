import ValueText.Console.Settings
import ValueText.Console.Sink
import ValueText.Print.Render

/-!
# Line writers

A line writer renders values to a sink under fixed settings.  Printing a line
prints its values and then ends the line, unless the values already did not fit; ending a line
flushes the sink if the settings say so.

`LineWriter.run` performs a sequence of steps and reports for each step what came of it, which
bytes it left in the sink and how often it flushed.
-/

namespace ValueText

/-- A sink takes fragments one by one. -/
instance : Out Sink.Action where
  put := Sink.write
  putFragments := Sink.writeAll

/-- Settings and a sink to print to. -/
structure LineWriter where
  settings : Settings
  sink : Sink := {}
  deriving DecidableEq, Repr

namespace LineWriter

def print (args : List Form) : Sink.Action Unit := renderAll args

def endLine (settings : Settings) : Sink.Action Unit := do
  Sink.write settings.terminator.bytes
  if settings.flushLines then Sink.flush

def printLine (settings : Settings) (args : List Form) : Sink.Action Unit := do
  print args
  endLine settings

inductive Step where
  | print (args : List Form)
  | printLine (args : List Form)
  | endLine
  | flush
  | settings

def Step.action (settings : Settings) : Step → Sink.Action Unit
  | .print args => LineWriter.print args
  | .printLine args => LineWriter.printLine settings args
  | .endLine => LineWriter.endLine settings
  | .flush => Sink.flush
  | .settings => pure ()

/-- What came of a step. -/
structure Report where
  failure : Option IoError
  settings : Option Settings
  /-- The bytes that the step left in the sink. -/
  out : Bytes
  /-- The number of successful flushes in the step. -/
  flushes : Nat
  deriving DecidableEq, Repr

/-- The failure and the sink that an action ends with. -/
def outcome (sink : Sink) (action : Sink.Action Unit) : Option IoError × Sink :=
  match action sink with
  | .ok () sink' => (none, sink')
  | .error e sink' => (some e, sink')

def perform (w : LineWriter) (step : Step) : LineWriter × Report :=
  let (failure, sink) := outcome w.sink (step.action w.settings)
  ({ w with sink },
    { failure
      settings := match step with
        | .settings => some w.settings
        | _ => none
      out := sink.bytes.drop w.sink.kept.size
      flushes := sink.flushes - w.sink.flushes })

/-- Performs steps in order, failures notwithstanding. -/
def run (w : LineWriter) : List Step → LineWriter × List Report
  | [] => (w, [])
  | step :: steps =>
    let (next, report) := w.perform step
    let (last, reports) := next.run steps
    (last, report :: reports)

end LineWriter

end ValueText
