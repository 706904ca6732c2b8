import ValueText.Number.Error
import ValueText.Utf8

/-!
# Commands

The arguments of the program are read as one command.

* Without a subcommand the program shows its arguments.
* `args REST...` shows the arguments behind the subcommand.
* `echo [-p PROMPT]` shows a prompt and one line of its input.
* `parse KIND TEXT` reads a number of the kind `i64`, `u64` or `f64`.

An argument that begins with a minus sign and is not just that sign is an option, and `--`
makes every argument behind it an ordinary one.  The text of `parse` may look like an option;
only the options for help are taken for themselves there.  Arguments that are used have to be
valid UTF-8.  Arguments are read from the front, and the first that does not fit is reported;
an option for help or for the version counts as soon as it is reached.
-/

namespace ValueText

/-- What the program is asked to do. -/
inductive Command where
  | showHelp
  | showVersion
  | showArguments
  | args (rest : List Bytes)
  | echo (prompt : Bytes)
  | parse (kind : NumberType) (text : Bytes)
  deriving DecidableEq, Repr

/-- Arguments that make no command. -/
inductive UsageError where
  /-- There is no such option, or no place for such an argument. -/
  | unexpected (argument : Bytes)
  /-- An option stands without its value, or the value without need. -/
  | badOption (name : String)
  /-- An option is given more than once. -/
  | repeated (name : String)
  | missing (name : String)
  | unknownKind (argument : Bytes)
  /-- The argument is not valid UTF-8. -/
  | malformed (argument : Bytes)
  deriving DecidableEq, Repr

/-- How an argument looks, while options are still possible. -/
inductive Token where
  /-- The two minus signs behind which there are no options. -/
  | escape
  /-- A long option, with the value behind an equals sign if there is one. -/
  | long (name : Bytes) (value : Option Bytes)
  /-- Short options of one letter each, at least one. -/
  | short (first : Char8) (more : Bytes)
  | plain (argument : Bytes)
  deriving DecidableEq, Repr

namespace Token

/-- A long option and its value, from what stands behind the two minus signs. -/
def ofLong (body : Bytes) : Token :=
  match body.dropWhile (· != 61) with
  | [] => long body none
  | _ :: value => long (body.takeWhile (· != 61)) (some value)

/-- How an argument looks. -/
def ofArgument : Bytes → Token
  | [45, 45] => escape
  | 45 :: 45 :: body => ofLong body
  | 45 :: first :: more => short first more
  | argument => plain argument

end Token

namespace Command

def helpLetter : Char8 := 104

def versionLetter : Char8 := 86

def promptLetter : Char8 := 112

def helpName : Bytes := Bytes.ofString "help"

def versionName : Bytes := Bytes.ofString "version"

def promptName : Bytes := Bytes.ofString "prompt"

def value (argument : Bytes) : Except UsageError Bytes :=
  match Utf8.decode? argument with
  | some _ => .ok argument
  | none => .error (.malformed argument)

/-- The kind of number that an argument names. -/
def kind (argument : Bytes) : Except UsageError NumberType :=
  if argument = Bytes.ofString "i64" then .ok (.integer .i64)
  else if argument = Bytes.ofString "u64" then .ok (.integer .u64)
  else if argument = Bytes.ofString "f64" then .ok (.float .f64)
  else .error (.unknownKind argument)

/-- What an option asks for that every subcommand has: help, or nothing. -/
def common (argument : Bytes) : Token → Except UsageError Command
  | .long name none =>
    if name = helpName then .ok .showHelp else .error (.unexpected argument)
  | .long name (some _) =>
    if name = helpName then .error (.badOption "--help") else .error (.unexpected argument)
  | .short first _ =>
    if first = helpLetter then .ok .showHelp else .error (.unexpected argument)
  | _ => .error (.unexpected argument)

def ofArgs (seen : List Bytes) : List Bytes → Except UsageError Command
  | [] => .ok (.args seen)
  | argument :: more =>
    match Token.ofArgument argument with
    | .escape => do return .args (seen ++ (← more.mapM value))
    | .plain text => do
      let text ← value text
      ofArgs (seen ++ [text]) more
    | token => common argument token

/-- Accepts a prompt if there was none before. -/
def setPrompt (before : Option Bytes) (prompt : Bytes) : Except UsageError (Option Bytes) := do
  let prompt ← value prompt
  match before with
  | none => return some prompt
  | some _ => .error (.repeated "--prompt")

/-- The arguments of `echo`.  `waiting` says that a prompt has to follow. -/
def ofEcho (waiting : Bool) (prompt : Option Bytes) : List Bytes → Except UsageError Command
  | [] =>
    if waiting then .error (.badOption "--prompt") else .ok (.echo (prompt.getD []))
  | argument :: more =>
    match waiting, Token.ofArgument argument with
    | true, .plain text => do ofEcho false (← setPrompt prompt text) more
    | true, _ => .error (.badOption "--prompt")
    | false, .escape =>
      match more with
      | [] => .ok (.echo (prompt.getD []))
      | extra :: _ => .error (.unexpected extra)
    | false, .long name text =>
      if name = promptName then
        match text with
        | none => ofEcho true prompt more
        | some text => do ofEcho false (← setPrompt prompt text) more
      else common argument (.long name text)
    | false, .short first attached =>
      if first = promptLetter then
        match attached with
        | [] => ofEcho true prompt more
        | 61 :: text => do ofEcho false (← setPrompt prompt text) more
        | text => do ofEcho false (← setPrompt prompt text) more
      else common argument (.short first attached)
    | false, .plain text => .error (.unexpected text)

/-- The last arguments of `parse`, none of which is an option. -/
def ofParsePlain (number : Option NumberType) (text : Option Bytes) (more : List Bytes) :
    Except UsageError Command :=
  match number, text, more with
  | some k, some t, [] => .ok (.parse k t)
  | some _, some _, extra :: _ => .error (.unexpected extra)
  | some k, none, [t] => do return .parse k (← value t)
  | some _, none, _ :: extra :: _ => .error (.unexpected extra)
  | some _, none, [] => .error (.missing "TEXT")
  | none, _, [k, t] => do
    let k ← kind k
    return .parse k (← value t)
  | none, _, _ :: _ :: extra :: _ => .error (.unexpected extra)
  | none, _, _ => .error (.missing "KIND")

/-- Whether an argument that looks like an option is one where a text is expected. -/
def isOptionForText : Token → Bool
  | .long name _ => name = helpName
  | .short first more => (first :: more).all (· = helpLetter)
  | _ => false

/-- The arguments of `parse`, of which the kind and the text may have been read. -/
def ofParse (number : Option NumberType) (text : Option Bytes) :
    List Bytes → Except UsageError Command
  | [] => ofParsePlain number text []
  | argument :: more =>
    match Token.ofArgument argument, number, text with
    | .escape, _, _ => ofParsePlain number text more
    | .plain k, none, _ => do ofParse (some (← kind k)) none more
    | .plain t, some k, none => do ofParse (some k) (some (← value t)) more
    | token, some k, none =>
      if isOptionForText token then common argument token
      else do ofParse (some k) (some (← value argument)) more
    | token, _, _ => common argument token

def subcommands : List Bytes := ["args", "echo", "parse", "help"].map Bytes.ofString

/-- The arguments of `help`, each of which has to name a subcommand. -/
def ofHelp : List Bytes → Except UsageError Command
  | [] => .ok .showHelp
  | name :: more =>
    if name ∈ subcommands then
      match more with
      | [] => .ok .showHelp
      | extra :: _ => .error (.unexpected extra)
    else .error (.unexpected name)

def ofArguments : List Bytes → Except UsageError Command
  | [] => .ok .showArguments
  | argument :: more =>
    match Token.ofArgument argument with
    | .escape =>
      match more with
      | [] => .ok .showArguments
      | extra :: _ => .error (.unexpected extra)
    | .plain name =>
      if name = Bytes.ofString "args" then ofArgs [] more
      else if name = Bytes.ofString "echo" then ofEcho false none more
      else if name = Bytes.ofString "parse" then ofParse none none more
      else if name = helpName then ofHelp more
      else .error (.unexpected name)
    | .long name none =>
      if name = versionName then .ok .showVersion else common argument (.long name none)
    | .short first more =>
      if first = versionLetter then .ok .showVersion else common argument (.short first more)
    | token => common argument token

end Command

end ValueText
