import LoxLex.Proofs.Places
import LoxLex.Proofs.Prompt
import LoxLex.Proofs.SessionScan

/-!
# What a run of the program says

The status of a run, what it shows and what it complains about come out of different parts of the
program. Here they are accounted for together, for all arguments, files and input.

## Main definitions

* `Log.Serves` — the log that a run with these options begins with.
* `Program.ScriptAccount`, `Program.PromptAccount` — what is said of a script and at the prompt.
* `Program.Accounted` — what is said in a whole run.

## Main statements

* `Program.report_writes`: what is said of one source.
* `Program.runPrompt_writes`: what is said at the prompt.
* `Program.run_accounted`: every run is accounted for.
-/

namespace LoxLex

/-- Errors go to `stderr`, and debug messages to `stdout` if the options ask for them. -/
structure Log.Serves (log : Log) (options : Options) : Prop where
  error : log.settings .error = ⟨true, some .stderr⟩
  debug : log.settings .debug = ⟨options.debug, some .stdout⟩

theorem Log.Serves.of_settings {log next : Log} {options : Options} (h : log.Serves options)
    (hnext : next.settings = log.settings) : next.Serves options :=
  ⟨hnext ▸ h.error, hnext ▸ h.debug⟩

@[simp] theorem Log.line_text (text : Bytes) : Log.line [.text text] = text ++ ascii "\n" := by
  simp [Log.line, Log.Part.format]

/-- All that a scan reports are errors. -/
theorem Source.hasErrors_scanAlone_iff (s : Source) :
    s.scanAlone.2.hasErrors = true ↔ s.faults ≠ [] := by
  have hcount : s.scanAlone.2.errorCount = s.faults.length := by
    rw [scanAlone, scan_eq, Sink.errorCount_addFaults]
    exact Nat.zero_add _
  rw [Sink.hasErrors, hcount, decide_eq_true_iff, List.length_pos_iff]

/-- No message breaks its line: a newline is a blank, and so no stray character. -/
theorem Source.newline_notMem_message {s : Source} {d : Diagnostic}
    (h : d ∈ s.scanAlone.2.entries) : Byte.newline ∉ d.message := by
  rw [entries_scanAlone] at h
  obtain ⟨fault, hfault, rfl⟩ := List.mem_map.mp h
  obtain ⟨p, hp, hfault⟩ := List.mem_filterMap.mp hfault
  unfold Placed.fault? at hfault
  split at hfault
  case h_1 hshape =>
    cases hfault
    have hformed := formed_of_mem_placed hp
    have hstray := hformed.newline_notMem (by rw [hshape]; rfl)
    have hwords : Byte.newline ∉ ascii "Unexpected character " := by decide
    simpa [Fault.diagnostic, Fault.message] using ⟨hwords, hstray⟩
  case h_2 =>
    cases hfault
    have hwords : Byte.newline ∉ ascii "Unterminated String." := by decide
    exact hwords
  case h_3 => cases hfault

namespace Program

variable {files : Bytes → Option Bytes} {arguments : List Bytes} {input path text : Bytes}
  {options : Options} {log : Log}

/-! ## The arguments -/

/-- What is said to rejected arguments: what is wrong with them, if anything is said about it, and
behind it how the program is called. -/
def rebuke (rejection : Rejection) : List Bytes :=
  (rejection.message?.toList ++ [usageLine]).map (· ++ ascii "\n")

theorem logUsage_report (rejection : Rejection) (log : Log) :
    logUsage (rejection.report log) = log.tell .error (rebuke rejection) := by
  unfold logUsage Rejection.report rebuke
  cases rejection.message? <;> simp [Log.post_eq]

/-- The usage stands in a line of its own, whatever was said before it. -/
theorem getLast?_lines_rebuke (rejection : Rejection) :
    (Bytes.lines (rebuke rejection).flatten).getLast? = some usageLine := by
  have husage : Bytes.lines (usageLine ++ ascii "\n") = [usageLine] :=
    Bytes.lines_append_newline (by decide) []
  unfold rebuke
  cases rejection.message? with
  | none => simpa using congrArg List.getLast? husage
  | some message =>
    have hnewline : ascii "\n" = [Byte.newline] := rfl
    have hlines := Bytes.lines_append_newline_append message (usageLine ++ ascii "\n")
    rw [husage] at hlines
    simpa [hnewline] using congrArg List.getLast? hlines

/-- Accepted arguments give a log that nothing was written to. -/
theorem exists_start (h : Options.parse arguments = .ok options) :
    ∃ log, start arguments = .ok (options, log) ∧ log.Serves options ∧
      log.text .stdout = [] ∧ log.text .stderr = [] := by
  refine ⟨if options.debug then Log.enable {} .debug else {}, by rw [start, h], ?_⟩
  rcases options with ⟨script, listing, _ | _⟩ <;> exact ⟨⟨rfl, rfl⟩, rfl, rfl⟩

/-! ## One source -/

/-- What is shown of a source: a line about its scan if the options ask for it, and its tokens. -/
def shown (options : Options) (source : Source) : Bytes :=
  (if options.debug then (⟨source, []⟩ : SourceUnit).scanLine else []) ++
    options.listing.format source.tokens

/-- What is complained about in a source: a line for each diagnostic. -/
def complaints (form : Diagnostic → Bytes) (source : Source) : Bytes :=
  source.scanAlone.2.entries.flatMap fun d => form d ++ ascii "\n"

theorem report_eq (options : Options) (form : Diagnostic → Bytes) (text path : Bytes) (log : Log) :
    let source : Source := ⟨text, path, 0⟩
    (report options form (Session.withSource {} text path) log).2 =
      ((log.tell .debug [(⟨source, []⟩ : SourceUnit).scanLine]).print .stdout
        (options.listing.format source.tokens)).tell .error
        (source.scanAlone.2.entries.map fun d => form d ++ ascii "\n") := by
  have htokens : ∀ s : Source,
      Session.tokens ⟨[SourceUnit.scanned ⟨s, []⟩], s.scanAlone.2, true⟩ = s.tokens :=
    fun s => List.flatMap_singleton _ _
  have hsession : ∀ log, (Session.withSource {} text path).scanAll log =
      (⟨[SourceUnit.scanned ⟨⟨text, path, 0⟩, []⟩], (⟨text, path, 0⟩ : Source).scanAlone.2, true⟩,
        log.tell .debug [(⟨⟨text, path, 0⟩, []⟩ : SourceUnit).scanLine]) :=
    fun log => by simp [Session.scanAll_eq, Session.withSource, Source.scanAlone, Source.scan_eq]
  simp only [report, hsession, htokens]
  rw [Log.foldl_post]
  simp only [Log.line_text]

/-- What is said of one source. -/
theorem report_writes (h : log.Serves options) (form : Diagnostic → Bytes) (text path : Bytes) :
    log.Writes (shown options ⟨text, path, 0⟩) (complaints form ⟨text, path, 0⟩)
      (report options form (Session.withSource {} text path) log).2 := by
  rw [report_eq]
  have hscan := Log.Writes.tell_stdout h.debug [(⟨⟨text, path, 0⟩, []⟩ : SourceUnit).scanLine]
  have hshow := hscan.trans (.print _ (options.listing.format (⟨text, path, 0⟩ : Source).tokens))
  have hreport := hshow.trans (.tell_stderr (h.of_settings hshow.settings).error
    ((⟨text, path, 0⟩ : Source).scanAlone.2.entries.map fun d => form d ++ ascii "\n"))
  simpa [shown, complaints, List.flatMap_def] using hreport

theorem complaints_eq_nil_iff (form : Diagnostic → Bytes) (source : Source) :
    complaints form source = [] ↔ source.faults = [] := by
  rw [complaints, Source.entries_scanAlone]
  cases source.faults with
  | nil => simp
  | cons fault faults => simp [ascii]

/-- In a line alone all complaints are about its first line. -/
theorem complaints_short {line : Bytes} (h : Byte.newline ∉ line) (path : Bytes) (id : UInt32) :
    complaints Diagnostic.short ⟨line, path, id⟩ =
      (⟨line, path, id⟩ : Source).scanAlone.2.entries.flatMap fun d =>
        ascii "[line 1] " ++ d.severity.label ++ ascii ": " ++ d.message ++ ascii "\n" := by
  refine List.flatMap_congr fun d hd => ?_
  rw [Source.entries_scanAlone] at hd
  obtain ⟨fault, hfault, rfl⟩ := List.mem_map.mp hd
  have hfirst : (fault.diagnostic (ascii "Scanner")).span.start.line = 1 :=
    (Source.onLine_of_mem_faults h hfault).alone.1
  have hline : ascii "[line 1] " = ascii "[line " ++ Bytes.decimal 1 ++ ascii "] " := by decide
  rw [Diagnostic.short, hfirst, hline]
  simp [Diagnostic.labelled]

/-! ## Scripts -/

theorem runScript_of_eq_none (h : files path = none) (options : Options) (log : Log) :
    runScript files options path log = (.noInput,
      log.tell .error [ascii "Error: Could not open file: " ++ path ++ ascii "\n"]) := by
  have hsplit : ascii "Error: Could not open file: " =
      ascii "Error: " ++ ascii "Could not open file: " := rfl
  simp [runScript, Session.addFile, h, Refusal.message, Log.post_eq, Log.line, Log.Part.format,
    hsplit]

/-- A script that is there is shown, and the status says whether there are complaints. -/
theorem runScript_writes (h : log.Serves options) (hfile : files path = some text) :
    (runScript files options path log).1 =
        (if (⟨text, path, 0⟩ : Source).faults = [] then .ok else .badData) ∧
      log.Writes (shown options ⟨text, path, 0⟩) (complaints (·.long path) ⟨text, path, 0⟩)
        (runScript files options path log).2 := by
  have hadd : Session.addFile {} files path = .ok (Session.withSource {} text path) := by
    simp [Session.addFile, Session.addSource, hfile]
  have herrors := (⟨text, path, 0⟩ : Source).hasErrors_scanAlone_iff
  rw [Source.scanAlone] at herrors
  rw [runScript, hadd]
  refine ⟨?_, report_writes h _ text path⟩
  simp only [report_withSource, herrors, ne_eq, ite_not]

/-! ## The prompt -/

theorem prompt_writes (log : Log) : log.Writes (ascii "> ") [] (prompt log) :=
  .print log (ascii "> ")

theorem answerLine_writes (h : log.Serves options) (line : Bytes) :
    log.Writes (ascii "> " ++ shown options ⟨line, ascii "<stdin>", 0⟩)
      (complaints Diagnostic.short ⟨line, ascii "<stdin>", 0⟩)
      (answerLine options (prompt log) line) :=
  have hprompt := prompt_writes log
  hprompt.trans (report_writes (h.of_settings hprompt.settings) _ line (ascii "<stdin>"))

/-- What is said at the prompt is what is said of each line, between the prompts. -/
theorem runPrompt_writes (h : log.Serves options) (lines : List Bytes) :
    log.Writes
      (lines.flatMap (fun line => ascii "> " ++ shown options ⟨line, ascii "<stdin>", 0⟩) ++
        ascii "> \n")
      (lines.flatMap fun line => complaints Diagnostic.short ⟨line, ascii "<stdin>", 0⟩)
      (runPrompt options lines log) := by
  have hsplit : ascii "> \n" = ascii "> " ++ ascii "\n" := rfl
  have hlines : log.Writes _ _
      (lines.foldl (fun log line => answerLine options (prompt log) line) log) :=
    .foldl (fun next line hnext => answerLine_writes (h.of_settings hnext) line) lines rfl
  have hend := (hlines.trans (prompt_writes _)).trans (.print _ (ascii "\n"))
  rw [runPrompt, hsplit]
  simpa using hend

/-! ## Whole runs -/

/-- What `text` says of the tokens. In a list each has a line with its kind, its lexeme and its
literal, in a table a row that gives the index and the line besides. -/
structure Listed (listing : Listing) (tokens : List Token) (text : Bytes) : Prop where
  list : listing = .list → text = tokens.flatMap fun t =>
    t.kind.name ++ ascii " " ++ t.lexeme ++ ascii " " ++ t.literalText ++ ascii "\n"
  table : listing = .table → text = (Table.ofRows
    [ascii "#", ascii "Kind", ascii "Lexeme", ascii "Literal", ascii "Line"]
    (tokens.mapIdx fun i t => [Bytes.decimal i, t.kind.name, ascii "'" ++ t.lexeme ++ ascii "'",
      t.literalText, Bytes.decimal t.line.toNat])).format

/-- What is said of a script with the given text: without debug messages its tokens, and only
them, on `stdout`; on `stderr` a line for each diagnostic, from the first to the last in the text,
with the path and the place; and the status says whether there are any. -/
structure ScriptAccount (options : Options) (path text : Bytes) (code : UInt32) (out err : Bytes) :
    Prop where
  out_eq : options.debug = false →
    Listed options.listing (⟨text, path, 0⟩ : Source).scanAlone.1 out
  err_eq : err = (⟨text, path, 0⟩ : Source).scanAlone.2.entries.flatMap fun d =>
    path ++ ascii ":" ++ Bytes.decimal d.span.start.line.toNat ++ ascii ":" ++
      Bytes.decimal d.span.start.column.toNat ++ ascii ": " ++ d.severity.label ++ ascii ": " ++
      d.message ++ ascii "\n"
  one_line : ∀ d ∈ (⟨text, path, 0⟩ : Source).scanAlone.2.entries, Byte.newline ∉ d.message
  ascending : ((⟨text, path, 0⟩ : Source).scanAlone.2.entries.map (·.span)).Pairwise Span.Before
  code_eq : code = if err = [] then 0 else 65

/-- What is said at the prompt: for each line what it says alone, all on its first line. -/
structure PromptAccount (options : Options) (input : Bytes) (code : UInt32) (out err : Bytes) :
    Prop where
  code_eq : code = 0
  out_eq : options.debug = false → ∃ texts, out = texts.flatMap (ascii "> " ++ ·) ++ ascii "> \n" ∧
    List.Forall₂ (fun line text =>
      Listed options.listing (⟨line, ascii "<stdin>", 0⟩ : Source).scanAlone.1 text)
      input.lines texts
  err_eq : err = input.lines.flatMap fun line =>
    (⟨line, ascii "<stdin>", 0⟩ : Source).scanAlone.2.entries.flatMap fun d =>
      ascii "[line 1] " ++ d.severity.label ++ ascii ": " ++ d.message ++ ascii "\n"
  one_line : ∀ line ∈ input.lines,
    ∀ d ∈ (⟨line, ascii "<stdin>", 0⟩ : Source).scanAlone.2.entries, Byte.newline ∉ d.message

/-- What is said if the arguments were accepted: that the script is not there, what is in it, or
what is in the lines of the input. -/
structure Answered (files : Bytes → Option Bytes) (options : Options) (input : Bytes)
    (code : UInt32) (out err : Bytes) : Prop where
  missing_iff : ∀ path, options.script = some path → (code = 66 ↔ files path = none)
  missing : ∀ path, options.script = some path → files path = none →
    out = [] ∧ err = ascii "Error: Could not open file: " ++ path ++ ascii "\n"
  script : ∀ path, options.script = some path → ∀ text, files path = some text →
    ScriptAccount options path text code out err
  prompt : options.script = none → PromptAccount options input code out err

/-- What a whole run says with its status, on `stdout` and on `stderr`. -/
structure Accounted (files : Bytes → Option Bytes) (arguments : List Bytes) (input : Bytes)
    (code : UInt32) (out err : Bytes) : Prop where
  usage_iff : code = 64 ↔ ∃ rejection, Options.parse arguments = .error rejection
  rejected : code = 64 → out = [] ∧ err.lines.getLast? = some usageLine
  accepted : ∀ options, Options.parse arguments = .ok options →
    Answered files options input code out err

theorem listed_format (listing : Listing) (tokens : List Token) :
    Listed listing tokens (listing.format tokens) where
  list := by
    rintro rfl
    exact List.flatMap_congr fun t _ => by simp [Token.format]
  table := by
    rintro rfl
    rfl

theorem runScript_scriptAccount (h : log.Serves options) (hout : log.text .stdout = [])
    (herr : log.text .stderr = []) (hfile : files path = some text) :
    let result := runScript files options path log
    ScriptAccount options path text result.1.code (result.2.text .stdout)
      (result.2.text .stderr) := by
  obtain ⟨hstatus, hwrites⟩ := runScript_writes h hfile
  have herr' := hwrites.stderr
  rw [herr, List.nil_append] at herr'
  constructor
  case out_eq =>
    intro hdebug
    have hshown : shown options ⟨text, path, 0⟩ =
        options.listing.format (⟨text, path, 0⟩ : Source).tokens := by
      simp [shown, hdebug]
    rw [hwrites.stdout, hout, List.nil_append, hshown]
    exact listed_format options.listing _
  case err_eq =>
    simp [herr', complaints, Diagnostic.long, Diagnostic.labelled, Position.format]
  case one_line => exact fun d => Source.newline_notMem_message
  case ascending =>
    rw [Source.entries_scanAlone, List.map_map]
    exact Source.pairwise_faults
  case code_eq =>
    simp only [hstatus, herr', complaints_eq_nil_iff]
    split <;> rfl

theorem runPrompt_promptAccount (h : log.Serves options) (hout : log.text .stdout = [])
    (herr : log.text .stderr = []) (input : Bytes) :
    let next := runPrompt options input.lines log
    PromptAccount options input Status.ok.code (next.text .stdout) (next.text .stderr) := by
  have hwrites := runPrompt_writes h input.lines
  constructor
  case code_eq => rfl
  case out_eq =>
    intro hdebug
    refine ⟨input.lines.map fun line =>
      options.listing.format (⟨line, ascii "<stdin>", 0⟩ : Source).tokens, ?_, ?_⟩
    · simp [hwrites.stdout, hout, shown, hdebug, List.flatMap_map]
    · refine List.forall₂_map_right_iff.mpr (List.forall₂_same.mpr fun line _ => ?_)
      exact listed_format options.listing _
  case err_eq =>
    rw [hwrites.stderr, herr, List.nil_append]
    exact List.flatMap_congr fun line hline =>
      complaints_short (Bytes.notMem_of_mem_lines hline) _ _
  case one_line => exact fun line _ d => Source.newline_notMem_message

theorem ScriptAccount.code_ne {code : UInt32} {out err : Bytes}
    (h : ScriptAccount options path text code out err) : code ≠ 64 ∧ code ≠ 66 := by
  rw [h.code_eq]
  split <;> decide

theorem runScript_answered (h : log.Serves options) (hout : log.text .stdout = [])
    (herr : log.text .stderr = []) (hscript : options.script = some path) (input : Bytes) :
    let result := runScript files options path log
    result.1.code ≠ 64 ∧ Answered files options input result.1.code (result.2.text .stdout)
      (result.2.text .stderr) := by
  cases hfile : files path with
  | none =>
    rw [runScript_of_eq_none hfile]
    have hwrites := Log.Writes.tell_stderr h.error
      [ascii "Error: Could not open file: " ++ path ++ ascii "\n"]
    simp only [hwrites.stdout, hwrites.stderr, hout, herr]
    refine ⟨by decide, ?_⟩
    constructor <;> simp [hscript, hfile, Status.code]
  | some text =>
    have haccount := runScript_scriptAccount h hout herr hfile
    obtain ⟨husage, hmissing⟩ := haccount.code_ne
    refine ⟨husage, ?_⟩
    constructor
    case script => simpa [hscript, hfile] using haccount
    all_goals simp [hscript, hfile, hmissing]

/-- Every run is accounted for. -/
theorem run_accounted (files : Bytes → Option Bytes) (arguments : List Bytes) (input : Bytes) :
    let result := run files arguments input
    Accounted files arguments input result.1.code (result.2.text .stdout)
      (result.2.text .stderr) := by
  cases hparse : Options.parse arguments with
  | error rejection =>
    have hrun : run files arguments input = (.usage, Log.tell {} .error (rebuke rejection)) := by
      rw [run, start, hparse, ← logUsage_report]
    have hwrites : Log.Writes {} [] (rebuke rejection).flatten (Log.tell {} .error _) :=
      .tell_stderr rfl (rebuke rejection)
    simp only [hrun, hwrites.stdout, hwrites.stderr]
    constructor
    case usage_iff => simp [Status.code, hparse]
    case rejected => exact fun _ => ⟨rfl, getLast?_lines_rebuke rejection⟩
    case accepted => simp [hparse]
  | ok options =>
    obtain ⟨log, hstart, hserves, hout, herr⟩ := exists_start hparse
    have hanswered : let result := run files arguments input
        result.1.code ≠ 64 ∧ Answered files options input result.1.code (result.2.text .stdout)
          (result.2.text .stderr) := by
      cases hscript : options.script with
      | none =>
        have haccount := runPrompt_promptAccount hserves hout herr input
        simp only [run, hstart, hscript]
        refine ⟨by decide, ?_⟩
        constructor
        case prompt => exact fun _ => haccount
        all_goals simp [hscript]
      | some path =>
        simp only [run, hstart, hscript]
        exact runScript_answered hserves hout herr hscript input
    obtain ⟨husage, hanswered⟩ := hanswered
    constructor
    case usage_iff => simp [hparse, husage]
    case rejected => exact fun h => absurd h husage
    case accepted => simpa [hparse] using hanswered

end Program

end LoxLex
