import ValueText.Text.Blank
import ValueText.Utf8

/-!
# Settings of the printing side

How a line ends and whether its end flushes the sink.  Settings are looked up by name; a
setting that is not there keeps its default.  A value counts without the blanks around it and
without regard to ASCII case.

One rejected value rejects all settings: `Settings.ofVariables` then names the setting, the
terminator before the flushing, and `Settings.ofEnvironment` falls back to the default for both.
-/

namespace ValueText

/-- What a line ends in. -/
inductive Terminator where
  | lf
  | crlf
  deriving DecidableEq, Repr

def Terminator.bytes : Terminator → Bytes
  | .lf => [Char8.lineFeed]
  | .crlf => [Char8.carriageReturn, Char8.lineFeed]

/-- The settings of the printing side. -/
structure Settings where
  terminator : Terminator := .lf
  /-- Whether the end of a line flushes the sink. -/
  flushLines : Bool := true
  deriving DecidableEq, Repr

/-- A value that a setting does not accept. -/
structure SettingError where
  key : String
  value : String
  expected : String
  deriving DecidableEq, Repr

namespace SettingError

def message (e : SettingError) : String := "invalid value for " ++ e.key

def help (e : SettingError) : String :=
  "'" ++ e.value ++ "' is not accepted, expected one of: " ++ e.expected

end SettingError

namespace Settings

def default : Settings := {}

def terminatorKey : String := "SOUL_LINE_ENDING"

def flushKey : String := "SOUL_FLUSH"

/-- A value as it counts: without surrounding blanks and in lower case. -/
def fold (value : String) : List Char := (Text.trim value.toList).map Char.toLower

/-- The terminator that a word names. -/
def terminatorOfWord? (word : List Char) : Option Terminator :=
  if word = "lf".toList then some .lf
  else if word = "crlf".toList then some .crlf
  else none

/-- The truth value that a word names. -/
def flagOfWord? (word : List Char) : Option Bool :=
  if word ∈ ["1".toList, "true".toList, "yes".toList] then some true
  else if word ∈ ["0".toList, "false".toList, "no".toList] then some false
  else none

def readTerminator (value : String) : Except SettingError Terminator :=
  match terminatorOfWord? (fold value) with
  | some terminator => .ok terminator
  | none => .error ⟨terminatorKey, value, "lf, crlf"⟩

def readFlush (value : String) : Except SettingError Bool :=
  match flagOfWord? (fold value) with
  | some flag => .ok flag
  | none => .error ⟨flushKey, value, "1, 0, true, false"⟩

/-- A setting by its value, or its default if it has none. -/
def readOr {α : Type} (read : String → Except SettingError α) (absent : α) :
    Option String → Except SettingError α
  | some value => read value
  | none => .ok absent

/-- The settings under a lookup by name. -/
def ofVariables (lookup : String → Option String) : Except SettingError Settings := do
  let terminator ← readOr readTerminator default.terminator (lookup terminatorKey)
  let flushLines ← readOr readFlush default.flushLines (lookup flushKey)
  return { terminator, flushLines }

end Settings

/-- The variables of a process.  Their values need not be valid UTF-8. -/
abbrev Environment := List (String × Bytes)

/-- The value of a variable; a value that is not valid UTF-8 counts as absent. -/
def Environment.lookup (env : Environment) (name : String) : Option String :=
  (env.find? (·.1 == name)).bind fun entry => Utf8.decode? entry.2

/-- The settings of a process: those of its variables if all of them are accepted, and the
    default otherwise. -/
def Settings.ofEnvironment (env : Environment) : Settings :=
  match Settings.ofVariables env.lookup with
  | .ok settings => settings
  | .error _ => Settings.default

end ValueText
