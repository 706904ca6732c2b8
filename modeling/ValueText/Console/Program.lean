import ValueText.Console.Command
import ValueText.Console.LineReader
import ValueText.Console.StandardOutput
import ValueText.Number.Read
import ValueText.Text.Basic

/-!
# The program

A command is carried out on the input and the variables of a process, and leaves an exit code
and what stands on the standard output.  A number that cannot be read makes the exit code 1,
arguments that make no command make it 2; neither leaves anything on the standard output.
-/

namespace ValueText

/-- What a program leaves behind. -/
structure Exit where
  code : Nat
  stdout : Bytes
  deriving DecidableEq, Repr

namespace Program

def name : String := "soul"

def versionText : String := name ++ " 0.1.0"

/-- A line in the place of the page that the argument parser prints for help.  That page is made
    by the parser and is not modelled; this line only keeps the place where it is printed. -/
def helpText : String :=
  "Usage: " ++ name ++ " [args [REST]... | echo [-p PROMPT] | parse KIND TEXT]"

/-- Success, after calls of the printing functions. -/
def succeed (env : Environment) (steps : List LineWriter.Step) : Exit :=
  ⟨0, (StandardOutput.run env steps).bytes⟩

def line (s : String) : Bytes := Bytes.ofString s ++ [Char8.lineFeed]

/-- The form of the number that a text begins with. -/
def readNumber (kind : NumberType) (text : Text) : Except NumberError Form :=
  match kind with
  | .integer k => form <$> readInteger k (chars text)
  | .float f => form <$> readFloat f (chars text)

/-- Carries out a command.  The arguments include the name of the program. -/
def carryOut (env : Environment) (arguments : List Bytes) (stdin : Bytes) : Command → Exit
  | .showHelp => ⟨0, line helpText⟩
  | .showVersion => ⟨0, line versionText⟩
  | .showArguments => succeed env [.printLine [form (Text.ofArguments arguments)]]
  | .args rest =>
    succeed env
      [.printLine [form "program: ", form (Text.ofBytes (arguments.headD []))],
       .printLine [form "args: ", form (Block.ofList (rest.map Text.ofBytes))]]
  | .echo prompt =>
    let before : List LineWriter.Step := [.print [form prompt], .flush]
    match (LineReader.ofBytes stdin).readLine.1 with
    | .ok text => succeed env (before ++ [.printLine [form (Text.ofBytes text)]])
    | .error _ => ⟨1, (succeed env before).stdout⟩
  | .parse kind text =>
    match readNumber kind (Text.ofBytes text) with
    | .ok number => succeed env [.printLine [number]]
    | .error _ => ⟨1, []⟩

/-- Runs the program with arguments, input and variables. -/
def run (env : Environment) (arguments : List Bytes) (stdin : Bytes) : Exit :=
  match Command.ofArguments arguments with
  | .ok command => carryOut env (Bytes.ofString name :: arguments) stdin command
  | .error _ => ⟨2, []⟩

end Program

end ValueText
