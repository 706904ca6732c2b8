import ValueText.Proofs.OneWriter
import ValueText.Proofs.PrintedNumbers
import ValueText.Proofs.TextForms

/-!
# Runs of the program

What a command leaves is put together from what its parts do: the reader of numbers or of lines,
the text of values, and the terminator of lines under the settings of the process.  The same comes
of the program in steps.  Reading prints nothing, so a number that cannot be read leaves nothing on
the standard output.

## Key results

- `Process.Printed.call`: a call prints its text behind what was printed before
- `Process.exit_carryOut`: the program in steps leaves what the program leaves
- `Program.carryOut_parse`, `Program.carryOut_parse_again`: numbers, printed once and twice
- `Program.carryOut_composes`: what each command leaves
-/

namespace ValueText

/-! ## Steps of a process -/

namespace Process

/-- What a process has printed that prints under some settings and cannot fail to. -/
structure Printed (p : Process) (settings : Settings) (text : Bytes) : Prop where
  chosen_eq : p.chosen = settings
  refusesNothing : p.stdout.RefusesNothing
  bytes_eq : p.stdout.bytes = text

variable {p : Process} {settings : Settings} {text : Bytes}

/-- A call prints its text behind what was printed before, and reads nothing. -/
theorem Printed.call (h : p.Printed settings text) (step : LineWriter.Step) :
    ∃ q : Process, q.Printed settings (text ++ step.intended settings) ∧ q.stdin = p.stdin ∧
      Process.call step p = .ok () q := by
  obtain ⟨stdout, houtcome, hstdout⟩ :=
    LineWriter.outcome_of_refusesNothing settings step h.refusesNothing
  obtain ⟨flushes, hleft⟩ :=
    LineWriter.leaves_action settings step p.stdout h.refusesNothing.within
  -- The step may flush besides, which shows in the count of flushes alone.
  have hbytes : stdout.bytes = text ++ step.intended settings := by
    rw [houtcome] at hleft
    rw [show stdout = _ from hleft, ← h.bytes_eq]
    exact Sink.bytes_receive_of_fits (h.refusesNothing.fits _)
  refine ⟨{ p with loaded := some settings, stdout }, ⟨rfl, hstdout, hbytes⟩, rfl, ?_⟩
  rw [call_eq, h.chosen_eq, houtcome]
  rfl

/-- A line that the input has is handed on as text. -/
theorem readLine_of_ok {line : Bytes} (h : p.stdin.readLine.1 = .ok line) :
    readLine p = .ok (Text.ofBytes line) { p with stdin := p.stdin.readLine.2 } := by
  show EStateM.bind (orEnd _ p.stdin.readLine.1) _ _ = _
  rw [h]
  rfl

/-! ### What is left at the end -/

/-- What a process leaves in the end is what its last steps leave. -/
theorem exit_bind {α : Type} {action : Action α} {k : α → Action Unit} {x : α} {q : Process}
    (h : action p = .ok x q) : p.exit (action >>= k) = q.exit (k x) := by
  have hrun : (action >>= k) p = k x q := by
    show EStateM.bind action k p = _
    rw [EStateM.bind, h]
  rw [exit, hrun]
  rfl

/-- A step that fails ends the process with what was printed before it. -/
theorem exit_bind_of_failure {α : Type} {action : Action α} {k : α → Action Unit} {e : Failure}
    {q : Process} (h : action p = .error (.failure e) q) :
    p.exit (action >>= k) = ⟨1, q.stdout.bytes⟩ := by
  have hrun : (action >>= k) p = .error (.failure e) q := by
    show EStateM.bind action k p = _
    rw [EStateM.bind, h]
  rw [exit, hrun]

/-- Bytes that are written at once are all that is printed. -/
theorem Printed.exit_emit (h : p.Printed settings []) (bytes : Bytes) :
    p.exit (emit bytes) = ⟨0, bytes⟩ := by
  obtain ⟨hok, -⟩ := Sink.writes_write bytes p.stdout h.refusesNothing.within
  have hemit : emit bytes p = .ok () { p with stdout := p.stdout.receive bytes } := by
    show settle (LineWriter.outcome p.stdout (Sink.write bytes)) p = _
    rw [LineWriter.outcome, hok (h.refusesNothing.fits bytes)]
    rfl
  -- Nothing was printed before, so the bytes are all there is.
  have hbytes := Sink.bytes_receive_of_fits (h.refusesNothing.fits bytes)
  rw [h.bytes_eq, List.nil_append] at hbytes
  rw [exit, hemit]
  exact congrArg (Exit.mk 0) hbytes

/-- A call at the end adds what it is to print, and the process succeeds. -/
theorem Printed.exit_call (h : p.Printed settings text) (step : LineWriter.Step) :
    p.exit (Process.call step) = ⟨0, text ++ step.intended settings⟩ := by
  obtain ⟨q, hq, -, hcall⟩ := h.call step
  rw [exit, hcall, ← hq.bytes_eq]

/-- A call that is not the last step leaves a process to go on from. -/
theorem Printed.exit_call_bind (h : p.Printed settings text) (step : LineWriter.Step)
    (rest : Action Unit) :
    ∃ q : Process, q.Printed settings (text ++ step.intended settings) ∧ q.stdin = p.stdin ∧
      p.exit (Process.call step >>= fun _ => rest) = q.exit rest := by
  obtain ⟨q, hq, hstdin, hcall⟩ := h.call step
  exact ⟨q, hq, hstdin, exit_bind hcall⟩

/-- Reading a line prints nothing. -/
theorem Printed.exit_readLine_bind (h : p.Printed settings text) {line : Bytes}
    (hline : p.stdin.readLine.1 = .ok line) (rest : Text → Action Unit) :
    ∃ q : Process, q.Printed settings text ∧
      p.exit (readLine >>= rest) = q.exit (rest (Text.ofBytes line)) :=
  ⟨{ p with stdin := p.stdin.readLine.2 }, ⟨h.chosen_eq, h.refusesNothing, h.bytes_eq⟩,
    exit_bind (readLine_of_ok hline)⟩

end Process

/-! ## The program -/

/-- The first line of the input is read. -/
theorem LineReader.readLine_ofBytes (data : Bytes) :
    (ofBytes data).readLine.1 = .ok (Lines.line data 0) := by
  have hlines := readLines_pending data 8192 (by decide) 1
  exact (List.cons.inj hlines).1

namespace Program

variable (env : Environment) (arguments : List Bytes) (stdin : Bytes)

/-- The bytes that end a line of the program. -/
def lineEnd : Bytes := (Settings.ofEnvironment env).terminator.bytes

/-- A run that succeeds prints what its steps are to print. -/
theorem succeed_eq (steps : List LineWriter.Step) :
    succeed env steps =
      ⟨0, steps.flatMap (LineWriter.Step.intended (Settings.ofEnvironment env))⟩ := by
  rw [succeed, StandardOutput.run_eq, LineWriter.run_bytes_of_unlimited _ _ rfl]
  rfl

/-- A printed line is its text and the end of the line. -/
theorem succeed_printLine (args : List Form) :
    succeed env [.printLine args] = ⟨0, args.flatMap Form.text ++ lineEnd env⟩ := by
  rw [succeed_eq, List.flatMap_singleton, LineWriter.Step.intended, toList_format]
  rfl

theorem succeed_printValue {α : Type} [HasForm α] (x : α) :
    succeed env [.printLine [form x]] = ⟨0, (Text.ofValue x).toList ++ lineEnd env⟩ := by
  rw [succeed_printLine, Text.toList_ofValue, List.flatMap_singleton]

/-! ### Numbers -/

/-- An integer is printed as it was found, or the program fails without output. -/
theorem carryOut_integer (k : IntType) (text : Bytes) :
    carryOut env arguments stdin (.parse (.integer k) text) =
      match readInteger k text with
      | .ok n => ⟨0, (Text.ofValue n).toList ++ lineEnd env⟩
      | .error _ => ⟨1, []⟩ := by
  have hchars : chars (Text.ofBytes text) = text := Text.toList_ofBytes text
  rw [carryOut, readNumber, hchars]
  -- The error is not printed on the standard output, which is left empty.
  cases readInteger k text with
  | error e => rfl
  | ok n => exact succeed_printValue env n

/-- So is a floating-point number. -/
theorem carryOut_float (f : FloatType) (text : Bytes) :
    carryOut env arguments stdin (.parse (.float f) text) =
      match readFloat f text with
      | .ok x => ⟨0, (Text.ofValue x).toList ++ lineEnd env⟩
      | .error _ => ⟨1, []⟩ := by
  have hchars : chars (Text.ofBytes text) = text := Text.toList_ofBytes text
  rw [carryOut, readNumber, hchars]
  cases readFloat f text with
  | error e => rfl
  | ok x => exact succeed_printValue env x

/-- A command that reads a number prints its canonical text, or nothing. -/
theorem carryOut_parse (kind : NumberType) (text : Bytes) :
    carryOut env arguments stdin (.parse kind text) =
      match kind.canonical? text with
      | some number => ⟨0, number ++ lineEnd env⟩
      | none => ⟨1, []⟩ := by
  -- By the kind of the number, since integers and floating-point numbers have readers of their own.
  cases kind with
  | integer k =>
    rw [carryOut_integer, NumberType.canonical?]
    cases readInteger k text <;> rfl
  | float f =>
    rw [carryOut_float, NumberType.canonical?]
    cases readFloat f text <;> rfl

/-- The text of an integer is printed as it is. -/
theorem carryOut_integer_text (k : IntType) (n : Integer k) :
    carryOut env arguments stdin (.parse (.integer k) (Text.ofValue n).toList) =
      ⟨0, (Text.ofValue n).toList ++ lineEnd env⟩ := by
  have hcanonical := NumberType.canonical?_integer n NumberType.endsBefore_nil
  rw [List.append_nil] at hcanonical
  rw [carryOut_parse, hcanonical]

theorem carryOut_float_text (f : FloatType) (x : Binary f) :
    carryOut env arguments stdin (.parse (.float f) (Text.ofValue x).toList) =
      ⟨0, (Text.ofValue x).toList ++ lineEnd env⟩ := by
  have hcanonical := NumberType.canonical?_float x NumberType.endsBefore_nil
  rw [List.append_nil] at hcanonical
  rw [carryOut_parse, hcanonical]

/-- The number that was printed is printed again for the output, also by a process with another
    terminator. -/
theorem carryOut_parse_again {kind : NumberType} {text out : Bytes}
    (h : carryOut env arguments stdin (.parse kind text) = ⟨0, out⟩) :
    ∃ number, out = number ++ lineEnd env ∧ ∀ env' arguments' stdin',
      carryOut env' arguments' stdin' (.parse kind out) = ⟨0, number ++ lineEnd env'⟩ := by
  rw [carryOut_parse] at h
  split at h
  next number hnumber =>
    cases h
    -- The terminator that was printed behind the number ends it for the reader.
    have hagain : kind.canonical? (number ++ lineEnd env) = some number :=
      NumberType.canonical?_append hnumber (NumberType.endsBefore_terminator _)
    refine ⟨number, rfl, fun env' arguments' stdin' => ?_⟩
    rw [carryOut_parse, hagain]
  next => cases h

/-! ### Lines -/

/-- An echo is its prompt and the first line of the input. -/
theorem carryOut_echo (prompt : Bytes) :
    carryOut env arguments stdin (.echo prompt) =
      ⟨0, prompt ++ Lines.line stdin 0 ++ lineEnd env⟩ := by
  have hprompt : (form prompt).text = prompt := rfl
  have hline : (form (Text.ofBytes (Lines.line stdin 0))).text = Lines.line stdin 0 :=
    Text.toList_ofBytes _
  rw [carryOut, LineReader.readLine_ofBytes]
  show succeed env _ = _
  rw [succeed_eq]
  simp [LineWriter.Step.intended, hprompt, hline, lineEnd]

/-! ### Arguments -/

/-- The list of arguments as it is printed. -/
def argumentList (arguments : List Bytes) : Bytes :=
  if arguments = [] then Bytes.ofString "[empty]"
  else
    Bytes.ofString "[" ++
      (Bytes.ofString ", ").intercalate
        (arguments.map fun argument => Bytes.ofString "\"" ++ argument ++ Bytes.ofString "\"") ++
      Bytes.ofString "]"

/-- The list of the arguments is printed with brackets, quotes and commas. -/
theorem text_texts (arguments : List Bytes) :
    (form (Block.ofList (arguments.map Text.ofBytes))).text = argumentList arguments := by
  -- Printed as a list, an argument is its characters, whatever bytes it has.
  have hform : form (Block.ofList (arguments.map Text.ofBytes)) =
      .list (arguments.map .chars) := by
    show Form.list ((Block.ofList (arguments.map Text.ofBytes)).toList.map form) = _
    rw [Block.toList_ofList, List.map_map]
    congr 1
    exact List.map_congr_left fun argument _ =>
      congrArg Form.chars (Text.toList_ofBytes argument)
  rw [hform, argumentList]
  split
  next hempty =>
    rw [hempty]
    rfl
  next hne =>
    rw [text_list_of_ne_nil (by simpa using hne), List.map_map]
    rfl

/-- The arguments are printed on a second line, behind that of the program name. -/
theorem carryOut_args (name : Bytes) (others rest : List Bytes) :
    carryOut env (name :: others) stdin (.args rest) =
      ⟨0, Bytes.ofString "program: " ++ name ++ lineEnd env ++
        (Bytes.ofString "args: " ++ argumentList rest ++ lineEnd env)⟩ := by
  have hname : (form (Text.ofBytes name)).text = name := Text.toList_ofBytes _
  have hstring (s : String) : (form s).text = Bytes.ofString s := rfl
  rw [carryOut, succeed_eq]
  simp [LineWriter.Step.intended, hname, hstring, text_texts, lineEnd]

end Program

/-! ## The program in steps -/

namespace Process

variable (env : Environment) (name : Bytes) (others : List Bytes) (stdin : Bytes)

/-- A process that was just started has printed nothing. -/
theorem printed_start (arguments : List Bytes) :
    (start env arguments stdin).Printed (Settings.ofEnvironment env) [] where
  chosen_eq := rfl
  refusesNothing := ⟨rfl, rfl⟩
  bytes_eq := rfl

/-- The program in steps leaves what the program leaves.  It has the name of the program as its
    first argument. -/
theorem exit_carryOut (command : Command) :
    (start env (name :: others) stdin).exit (carryOut command) =
      Program.carryOut env (name :: others) stdin command := by
  have hstart := printed_start env stdin (name :: others)
  -- By the command; each one comes down to calls on a process that has printed nothing yet.
  cases command with
  | showHelp => exact hstart.exit_emit _
  | showVersion => exact hstart.exit_emit _
  | showArguments =>
    rw [Program.carryOut, Program.succeed_eq, List.flatMap_singleton]
    exact hstart.exit_call _
  | args rest =>
    have hargument : argument 0 (start env (name :: others) stdin) =
        .ok (Text.ofBytes name) (start env (name :: others) stdin) := rfl
    rw [Program.carryOut, Program.succeed_eq, carryOut, exit_bind hargument]
    obtain ⟨q, hq, -, hprogram⟩ := hstart.exit_call_bind
      (.printLine [form "program: ", form (Text.ofBytes name)])
      (call (.printLine [form "args: ", form (Block.ofList (rest.map Text.ofBytes))]))
    rw [hprogram, hq.exit_call]
    simp
  | echo prompt =>
    rw [Program.carryOut, LineReader.readLine_ofBytes, carryOut]
    obtain ⟨p, hp, hstdin, hprompt⟩ := hstart.exit_call_bind (.print [form prompt])
      (do
        call .flush
        let line ← readLine
        call (.printLine [form line]))
    obtain ⟨q, hq, hstdin', hflush⟩ := hp.exit_call_bind .flush
      (do
        let line ← readLine
        call (.printLine [form line]))
    -- The calls leave the input as it was, so it is its first line that is read.
    have hline : q.stdin.readLine.1 = .ok (Lines.line stdin 0) := by
      rw [hstdin', hstdin]
      exact LineReader.readLine_ofBytes stdin
    obtain ⟨r, hr, hread⟩ := hq.exit_readLine_bind hline
      fun line => call (.printLine [form line])
    show _ = Program.succeed env _
    rw [hprompt, hflush, hread, hr.exit_call, Program.succeed_eq]
    simp
  -- Reading the number does not touch the process.
  | parse kind text =>
    rw [Program.carryOut, carryOut]
    cases hread : Program.readNumber kind (Text.ofBytes text) with
    | error e =>
      -- Nothing was printed before the failure.
      have hnumber : readNumber kind (Text.ofBytes text) (start env (name :: others) stdin) =
          .error (.failure (.number e)) (start env (name :: others) stdin) := by
        rw [readNumber, hread]
        rfl
      rw [exit_bind_of_failure hnumber]
      rfl
    | ok number =>
      have hnumber : readNumber kind (Text.ofBytes text) (start env (name :: others) stdin) =
          .ok number (start env (name :: others) stdin) := by
        rw [readNumber, hread]
        rfl
      show _ = Program.succeed env _
      rw [exit_bind hnumber, hstart.exit_call, Program.succeed_eq]
      simp

end Process

namespace Program

open Lines (dropReturn)

variable (env : Environment) (name : Bytes) (others : List Bytes) (stdin : Bytes)

/-- What the program leaves is made of what its parts do, and its steps leave the same.

    * `parse` prints the number that the reader finds and succeeds, or prints nothing and fails as
      the reader does.  The text of a number is printed as it is, and the output of `parse` is
      text that `parse` prints the same number for, in whatever process.
    * `echo` prints its prompt and the first line of the input, which is all of the input if no
      line feed is in it.
    * `args` prints the name of the program and the list of the arguments.

    Every line ends as the variables of the process say. -/
theorem carryOut_composes :
    (∀ command, (Process.start env (name :: others) stdin).exit (Process.carryOut command) =
      carryOut env (name :: others) stdin command) ∧
    (∀ k text, carryOut env (name :: others) stdin (.parse (.integer k) text) =
      match readInteger k text with
      | .ok n => ⟨0, (Text.ofValue n).toList ++ lineEnd env⟩
      | .error _ => ⟨1, []⟩) ∧
    (∀ f text, carryOut env (name :: others) stdin (.parse (.float f) text) =
      match readFloat f text with
      | .ok x => ⟨0, (Text.ofValue x).toList ++ lineEnd env⟩
      | .error _ => ⟨1, []⟩) ∧
    (∀ k (n : Integer k),
      carryOut env (name :: others) stdin (.parse (.integer k) (Text.ofValue n).toList) =
        ⟨0, (Text.ofValue n).toList ++ lineEnd env⟩) ∧
    (∀ f (x : Binary f),
      carryOut env (name :: others) stdin (.parse (.float f) (Text.ofValue x).toList) =
        ⟨0, (Text.ofValue x).toList ++ lineEnd env⟩) ∧
    (∀ kind text out, carryOut env (name :: others) stdin (.parse kind text) = ⟨0, out⟩ →
      ∃ number, out = number ++ lineEnd env ∧ ∀ env' arguments' stdin',
        carryOut env' arguments' stdin' (.parse kind out) = ⟨0, number ++ lineEnd env'⟩) ∧
    (∀ prompt, Char8.lineFeed ∉ stdin →
      carryOut env (name :: others) stdin (.echo prompt) = ⟨0, prompt ++ stdin ++ lineEnd env⟩) ∧
    (∀ prompt line rest, stdin = line ++ Char8.lineFeed :: rest → Char8.lineFeed ∉ line →
      carryOut env (name :: others) stdin (.echo prompt) =
        ⟨0, prompt ++ dropReturn line ++ lineEnd env⟩) ∧
    (∀ rest, carryOut env (name :: others) stdin (.args rest) =
      ⟨0, Bytes.ofString "program: " ++ name ++ lineEnd env ++
        (Bytes.ofString "args: " ++ argumentList rest ++ lineEnd env)⟩) := by
  refine ⟨Process.exit_carryOut env name others stdin, carryOut_integer env _ stdin,
    carryOut_float env _ stdin, carryOut_integer_text env _ stdin, carryOut_float_text env _ stdin,
    fun _ _ _ hout => carryOut_parse_again env _ stdin hout, fun prompt hmem => ?_,
    fun prompt line rest hstdin hline => ?_, carryOut_args env stdin name others⟩
  -- Without a line feed, a carriage return at the end belongs to the line.
  · rw [carryOut_echo, Lines.line_zero_of_not_mem hmem]
  · rw [carryOut_echo, hstdin, Lines.line_zero_append hline]

/-- A number between a blank and a letter, a first line that ends in a carriage return, and one
    that nothing ends. -/
theorem carryOut_composes_padded :
    let arguments := [Bytes.ofString "soul"]
    let number (text : String) : Command := .parse (.integer .i64) (Bytes.ofString text)
    let echo : Command := .echo (Bytes.ofString "> ")
    carryOut [] arguments [] (number " 42x") = ⟨0, Bytes.ofString "42\n"⟩ ∧
    carryOut [] arguments [] (number "42\n") = ⟨0, Bytes.ofString "42\n"⟩ ∧
    carryOut [] arguments (Bytes.ofString "a\r\nb") echo = ⟨0, Bytes.ofString "> a\n"⟩ ∧
    carryOut [] arguments (Bytes.ofString "b\r") echo = ⟨0, Bytes.ofString "> b\r\n"⟩ := by
  intro arguments number echo
  obtain ⟨-, hinteger, -, -, -, hagain, -⟩ :=
    carryOut_composes [] (Bytes.ofString "soul") [] []
  obtain ⟨-, -, -, -, -, -, -, hline, -⟩ :=
    carryOut_composes [] (Bytes.ofString "soul") [] (Bytes.ofString "a\r\nb")
  obtain ⟨-, -, -, -, -, -, hrest, -⟩ :=
    carryOut_composes [] (Bytes.ofString "soul") [] (Bytes.ofString "b\r")
  have hread : readInteger .i64 (Bytes.ofString " 42x") = .ok ⟨42, by decide, by decide⟩ := by
    decide +kernel
  have hfirst := hinteger .i64 (Bytes.ofString " 42x")
  rw [hread] at hfirst
  have hprinted : carryOut [] arguments [] (number " 42x") = ⟨0, Bytes.ofString "42\n"⟩ :=
    hfirst.trans (by decide +kernel)
  -- The output of the first run is the text that the second one reads.
  obtain ⟨digits, hdigits, hsecond⟩ := hagain _ _ _ hprinted
  refine ⟨hprinted, (hsecond [] arguments []).trans (congrArg (Exit.mk 0) hdigits.symm), ?_, ?_⟩
  · exact (hline (Bytes.ofString "> ") (Bytes.ofString "a\r") (Bytes.ofString "b")
      (by decide) (by decide)).trans (by decide +kernel)
  · exact (hrest (Bytes.ofString "> ") (by decide)).trans (by decide +kernel)

end Program

end ValueText
