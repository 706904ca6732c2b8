import ValueText.Console.Program

/-!
# The command line

Collects what the program needs from its process and hands back what the program leaves.
-/

namespace ValueText.Main

/-- The variables that the program looks at. -/
def environment : IO Environment := do
  let names := [Settings.terminatorKey, Settings.flushKey]
  let entries ← names.mapM fun name => do
    return (← IO.getEnv name).map fun value => (name, Bytes.ofString value)
  return entries.filterMap id

/-- The whole standard input. -/
partial def readAll (stream : IO.FS.Stream) (read : ByteArray) : IO Bytes := do
  let bytes ← stream.read 65536
  if bytes.isEmpty then return read.data.toList
  else readAll stream (read ++ bytes)

/-- The standard input if the command needs it. -/
def input (arguments : List Bytes) : IO Bytes := do
  match Command.ofArguments arguments with
  | .ok (.echo _) => readAll (← IO.getStdin) ByteArray.empty
  | _ => return []

end ValueText.Main

open ValueText

/-- Runs the program on the arguments, the input and the variables of the process. -/
def main (arguments : List String) : IO UInt32 := do
  let arguments := arguments.map Bytes.ofString
  let result := Program.run (← Main.environment) arguments (← Main.input arguments)
  let stdout ← IO.getStdout
  stdout.write ⟨result.stdout.toArray⟩
  stdout.flush
  return UInt32.ofNat result.code
