import LoxLex.Proofs.Outcome

/-!
# Debug lines

With the option `--debug` a run says of each scan how many tokens and how many errors it found.
Wherever the option stands among the arguments, these lines are all that it adds.

## Main definitions

* `Program.Outcome`, `Program.outcome` — what is seen of a run from outside.
* `Program.debugLine` — the line about a scan.
* `Program.Annotates` — the outcomes of a run without and with the option, side by side.

## Main statements

* `Options.parse_insert_debug`: the option changes nothing else that is asked for.
* `Program.outcome_insert_debug`: the option only adds lines about scans.
-/

namespace LoxLex

namespace Options

variable {arguments : List Bytes} {o : Options}

def withDebug (o : Options) : Options := { o with debug := true }

/-- No argument is read differently once debug messages are asked for. -/
theorem add_withDebug (o : Options) (argument : Bytes) :
    o.withDebug.add argument = (o.add argument).map withDebug := by
  unfold add
  split_ifs <;> grind [withDebug, Except.map]

theorem foldlM_withDebug (arguments : List Bytes) (o : Options) :
    arguments.foldlM add o.withDebug = (arguments.foldlM add o).map withDebug := by
  induction arguments generalizing o with
  | nil => rfl
  | cons argument arguments ih =>
    rw [List.foldlM_cons, List.foldlM_cons, add_withDebug]
    cases o.add argument with
    | error rejection => rfl
    | ok next => exact ih next

theorem add_debug (o : Options) : o.add (ascii "--debug") = .ok o.withDebug := by
  simp [add, withDebug]

/-- `--debug` asks for debug messages, wherever it stands, and for nothing else. -/
theorem parse_insert_debug (before behind : List Bytes) :
    parse (before ++ ascii "--debug" :: behind) = (parse (before ++ behind)).map withDebug := by
  unfold parse
  rw [List.foldlM_append, List.foldlM_append]
  cases before.foldlM add {} with
  | error rejection => rfl
  | ok o =>
    change ((ascii "--debug" :: behind).foldlM add o) = (behind.foldlM add o).map withDebug
    rw [List.foldlM_cons, add_debug, ← foldlM_withDebug]
    rfl

theorem debug_of_add {argument : Bytes} {next : Options} (h : o.add argument = .ok next) :
    next.debug = (o.debug || argument == ascii "--debug") := by
  unfold add at h
  split_ifs at h <;> grind

theorem debug_of_foldlM {next : Options} (h : arguments.foldlM add o = .ok next) :
    next.debug = (o.debug || arguments.contains (ascii "--debug")) := by
  induction arguments generalizing o with
  | nil =>
    cases h
    simp
  | cons argument arguments ih =>
    rw [List.foldlM_cons] at h
    cases hadd : o.add argument with
    | error rejection => simp [hadd, bind, Except.bind] at h
    | ok first =>
      rw [hadd] at h
      rw [ih h, debug_of_add hadd, List.contains_cons, Bool.or_assoc]
      grind

/-- Debug messages are asked for by `--debug` alone. -/
theorem debug_of_parse (h : parse arguments = .ok o) :
    o.debug = arguments.contains (ascii "--debug") := by
  simpa using debug_of_foldlM h

end Options

namespace Program

variable {files : Bytes → Option Bytes} {arguments : List Bytes} {input path text : Bytes}
  {options : Options} {rejection : Rejection}

/-! ## What is seen of a run -/

/-- How a run ends and what it writes to `stdout` and `stderr`. -/
structure Outcome where
  code : UInt32
  out : Bytes
  err : Bytes

def outcome (files : Bytes → Option Bytes) (arguments : List Bytes) (input : Bytes) : Outcome :=
  let result := run files arguments input
  ⟨result.1.code, result.2.text .stdout, result.2.text .stderr⟩

/-- What is seen of a run is what it writes behind a log that nothing was written to. -/
theorem outcome_of_writes {log last : Log} {status : Status} {out err : Bytes}
    (hout : log.text .stdout = []) (herr : log.text .stderr = [])
    (hrun : run files arguments input = (status, last)) (hwrites : log.Writes out err last) :
    outcome files arguments input = ⟨status.code, out, err⟩ := by
  rw [outcome, hrun, hwrites.stdout, hwrites.stderr, hout, herr, List.nil_append, List.nil_append]

theorem outcome_of_error (h : Options.parse arguments = .error rejection) :
    outcome files arguments input = ⟨64, [], (rebuke rejection).flatten⟩ := by
  have hrun : run files arguments input = (.usage, Log.tell {} .error (rebuke rejection)) := by
    rw [run, start, h, ← logUsage_report]
  exact outcome_of_writes rfl rfl hrun (.tell_stderr rfl (rebuke rejection))

theorem outcome_of_missing (h : Options.parse arguments = .ok options)
    (hscript : options.script = some path) (hfile : files path = none) :
    outcome files arguments input =
      ⟨66, [], ascii "Error: Could not open file: " ++ path ++ ascii "\n"⟩ := by
  obtain ⟨log, hstart, hserves, hout, herr⟩ := exists_start h
  let message := ascii "Error: Could not open file: " ++ path ++ ascii "\n"
  have hrun : run files arguments input = (.noInput, log.tell .error [message]) := by
    simp only [run, hstart, hscript, runScript_of_eq_none hfile]
    rfl
  have hwrites := Log.Writes.tell_stderr hserves.error [message]
  rw [List.flatten_singleton] at hwrites
  exact outcome_of_writes hout herr hrun hwrites

theorem outcome_of_script (h : Options.parse arguments = .ok options)
    (hscript : options.script = some path) (hfile : files path = some text) :
    let source : Source := ⟨text, path, 0⟩
    outcome files arguments input = ⟨if source.faults = [] then 0 else 65, shown options source,
      complaints (·.long path) source⟩ := by
  intro source
  obtain ⟨log, hstart, hserves, hout, herr⟩ := exists_start h
  obtain ⟨hstatus, hwrites⟩ := runScript_writes hserves hfile
  have hrun : run files arguments input = (if source.faults = [] then .ok else .badData,
      (runScript files options path log).2) := by
    simp only [run, hstart, hscript, source, ← hstatus]
  rw [outcome_of_writes hout herr hrun hwrites]
  split <;> rfl

theorem outcome_of_prompt (h : Options.parse arguments = .ok options)
    (hscript : options.script = none) :
    outcome files arguments input = ⟨0,
      (input.lines.flatMap fun line =>
        ascii "> " ++ shown options ⟨line, ascii "<stdin>", 0⟩) ++ ascii "> \n",
      input.lines.flatMap fun line =>
        complaints Diagnostic.short ⟨line, ascii "<stdin>", 0⟩⟩ := by
  obtain ⟨log, hstart, hserves, hout, herr⟩ := exists_start h
  have hrun : run files arguments input = (.ok, runPrompt options input.lines log) := by
    simp only [run, hstart, hscript]
  exact outcome_of_writes hout herr hrun (runPrompt_writes hserves input.lines)

/-! ## With and without debug messages -/

/-- The line about a scan that found so many tokens and diagnostics. -/
def debugLine (path : Bytes) (tokens diagnostics : Nat) : Bytes :=
  ascii "Scanned " ++ Bytes.decimal tokens ++ ascii " tokens from '" ++ path ++ ascii "' (" ++
    Bytes.decimal diagnostics ++ ascii " errors)\n"

theorem shown_of_quiet (h : options.debug = false) (source : Source) :
    shown options source = options.listing.format source.scanAlone.1 := by
  simp [shown, h, Source.scanAlone_eq]

theorem shown_withDebug (options : Options) (source : Source) :
    shown options.withDebug source =
      debugLine source.path source.scanAlone.1.length source.scanAlone.2.entries.length ++
        options.listing.format source.scanAlone.1 := by
  simp [shown, Options.withDebug, Source.scanAlone_eq, debugLine, SourceUnit.scanLine]

/-- The outcomes of a run without `--debug` and with it: the same status and the same complaints.
Where there is nothing to scan nothing is shown either way. A script is shown with one more line
before its tokens, which says how many they are and how many complaints there are; at the prompt
every line of the input is answered with one more line in the same place. -/
structure Annotates (files : Bytes → Option Bytes) (arguments : List Bytes) (input : Bytes)
    (quiet loud : Outcome) : Prop where
  code_eq : loud.code = quiet.code
  err_eq : loud.err = quiet.err
  silent : quiet.code = 64 ∨ quiet.code = 66 → loud.out = quiet.out
  rejected : ∀ rejection, Options.parse arguments = .error rejection → quiet.code = 64
  missing : ∀ options path, Options.parse arguments = .ok options →
    options.script = some path → files path = none → quiet.code = 66
  script : ∀ options path text, Options.parse arguments = .ok options →
    options.script = some path → files path = some text →
      let found := (⟨text, path, 0⟩ : Source).scanAlone
      let dump := options.listing.format found.1
      quiet.out = dump ∧
      loud.out = debugLine path found.1.length found.2.entries.length ++ dump ∧
      loud.err = found.2.entries.flatMap fun d => d.long path ++ ascii "\n"
  prompt : ∀ options, Options.parse arguments = .ok options → options.script = none →
    let found (line : Bytes) := (⟨line, ascii "<stdin>", 0⟩ : Source).scanAlone
    let dump (line : Bytes) := options.listing.format (found line).1
    quiet.out = (input.lines.flatMap fun line => ascii "> " ++ dump line) ++ ascii "> \n" ∧
    loud.out = (input.lines.flatMap fun line => ascii "> " ++
      (debugLine (ascii "<stdin>") (found line).1.length (found line).2.entries.length ++
        dump line)) ++ ascii "> \n" ∧
    loud.err = input.lines.flatMap fun line =>
      (found line).2.entries.flatMap fun d => d.short ++ ascii "\n"

/-- With `--debug` the same options are in force, but for the debug messages. -/
theorem parse_of_quiet {before behind : List Bytes} (h : ascii "--debug" ∉ before ++ behind)
    (hparse : Options.parse (before ++ behind) = .ok options) : options.debug = false ∧
      Options.parse (before ++ ascii "--debug" :: behind) = .ok options.withDebug := by
  constructor
  · rw [Options.debug_of_parse hparse]
    simpa using h
  · rw [Options.parse_insert_debug, hparse]
    rfl

/-- Debug messages change neither status nor complaints, and nothing at all where there is nothing
to scan. -/
theorem outcome_of_quiet (files : Bytes → Option Bytes) (input : Bytes)
    {before behind : List Bytes} (h : ascii "--debug" ∉ before ++ behind) :
    let quiet := outcome files (before ++ behind) input
    let loud := outcome files (before ++ ascii "--debug" :: behind) input
    loud.code = quiet.code ∧ loud.err = quiet.err ∧
      (quiet.code = 64 ∨ quiet.code = 66 → loud.out = quiet.out) := by
  cases hparse : Options.parse (before ++ behind) with
  | error rejection =>
    have hloud : Options.parse (before ++ ascii "--debug" :: behind) = .error rejection := by
      rw [Options.parse_insert_debug, hparse]
      rfl
    simp [outcome_of_error hparse, outcome_of_error hloud]
  | ok options =>
    obtain ⟨-, hloud⟩ := parse_of_quiet h hparse
    cases hscript : options.script with
    | none => simp [outcome_of_prompt hparse hscript, outcome_of_prompt hloud hscript]
    | some path =>
      cases hfile : files path with
      | none =>
        simp [outcome_of_missing hparse hscript hfile, outcome_of_missing hloud hscript hfile]
      | some text =>
        simp only [outcome_of_script hparse hscript hfile, outcome_of_script hloud hscript hfile]
        split <;> simp

/-- Put anywhere among arguments that do not have it, `--debug` only adds lines about scans. -/
theorem outcome_insert_debug (files : Bytes → Option Bytes) (before behind : List Bytes)
    (input : Bytes) (h : ascii "--debug" ∉ before ++ behind) :
    Annotates files (before ++ behind) input (outcome files (before ++ behind) input)
      (outcome files (before ++ ascii "--debug" :: behind) input) := by
  obtain ⟨hcode, herr, hsilent⟩ := outcome_of_quiet files input h
  constructor
  case code_eq => exact hcode
  case err_eq => exact herr
  case silent => exact hsilent
  case rejected =>
    intro rejection hparse
    rw [outcome_of_error hparse]
  case missing =>
    intro options path hparse hscript hfile
    rw [outcome_of_missing hparse hscript hfile]
  case script =>
    intro options path text hparse hscript hfile
    obtain ⟨hquiet, hloud⟩ := parse_of_quiet h hparse
    rw [outcome_of_script hparse hscript hfile, outcome_of_script hloud hscript hfile]
    exact ⟨shown_of_quiet hquiet _, shown_withDebug options _, rfl⟩
  case prompt =>
    intro options hparse hscript
    obtain ⟨hquiet, hloud⟩ := parse_of_quiet h hparse
    rw [outcome_of_prompt hparse hscript, outcome_of_prompt hloud hscript]
    simp [shown_of_quiet hquiet, shown_withDebug, complaints]

/-- The option stands before a script with two errors. -/
theorem outcome_insert_debug_two_errors :
    let files : Bytes → Option Bytes := fun _ => some (ascii "print 1;\n@ \"open")
    let before := [ascii "--tokens=table"]
    let behind := [ascii "a.lox"]
    ascii "--debug" ∉ before ++ behind ∧
      Annotates files (before ++ behind) [] (outcome files (before ++ behind) [])
        (outcome files (before ++ ascii "--debug" :: behind) []) := by
  intro files before behind
  have h : ascii "--debug" ∉ before ++ behind := by decide
  exact ⟨h, outcome_insert_debug files before behind [] h⟩

example : (outcome (fun _ => none) [ascii "--debug"] (ascii "1")).out =
    ascii "> Scanned 2 tokens from '<stdin>' (0 errors)\nNUMBER 1 1\nEOF  null\n> \n" := by
  decide +kernel

end Program

end LoxLex
