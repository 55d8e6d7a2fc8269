import LoxLex.Options
import LoxLex.Session

/-!
# The program

`lox` lists the tokens of a script, or of every line that it is given at its prompt.

## Main definitions

* `Program.runScript` — the tokens of a file.
* `Program.answerLine` — the tokens of one line at the prompt.
* `Program.run` — a whole run, from arguments and input to status and output.
-/

namespace LoxLex

/-- How a run ends. -/
inductive Status where
  | ok
  | usage
  | badData
  | noInput
deriving DecidableEq, Repr

/-- The number by which the program tells its status. -/
def Status.code : Status → UInt32
  | ok => 0
  | usage => 64
  | badData => 65
  | noInput => 66

namespace Program

def usageLine : Bytes := ascii "Usage: lox [--tokens=list|table] [--debug] [script]"

/-- Logs how the program is called. -/
def logUsage (log : Log) : Log := log.post .error [.text usageLine]

/-- Reads the arguments. With the options comes the log to begin with; arguments that are
rejected leave only a log, which says so. -/
def start (arguments : List Bytes) : Except Log (Options × Log) :=
  match Options.parse arguments with
  | .error rejection => .error (logUsage (rejection.report {}))
  | .ok options => .ok (options, if options.debug then Log.enable {} .debug else {})

/-- Scans a session and shows its tokens, then its diagnostics, each written by `form`. -/
def report (options : Options) (form : Diagnostic → Bytes) (session : Session) (log : Log) :
    Session × Log :=
  let (session, log) := session.scanAll log
  let log := log.print .stdout (options.listing.format session.tokens)
  (session, session.sink.entries.foldl (fun log d => log.post .error [.text (form d)]) log)

/-- Lists the tokens of the script. -/
def runScript (files : Bytes → Option Bytes) (options : Options) (path : Bytes) (log : Log) :
    Status × Log :=
  match Session.addFile {} files path with
  | .error refusal => (.noInput, log.post .error [.text (ascii "Error: "), .text refusal.message])
  | .ok session =>
    let (session, log) := report options (·.long path) session log
    (if session.sink.hasErrors then .badData else .ok, log)

/-- Lists the tokens of one line, which is a source of its own. -/
def answerLine (options : Options) (log : Log) (line : Bytes) : Log :=
  (report options Diagnostic.short (Session.withSource {} line (ascii "<stdin>")) log).2

def prompt (log : Log) : Log := log.print .stdout (ascii "> ")

/-- Prompts for lines until there are no more, and ends the last prompt's line. -/
def runPrompt (options : Options) (lines : List Bytes) (log : Log) : Log :=
  (prompt (lines.foldl (fun log line => answerLine options (prompt log) line) log)).print
    .stdout (ascii "\n")

/-- A whole run: its status and the log of what it wrote. `files` tells the text of a file from
its path. -/
def run (files : Bytes → Option Bytes) (arguments : List Bytes) (input : Bytes) :
    Status × Log :=
  match start arguments with
  | .error log => (.usage, log)
  | .ok (options, log) =>
    match options.script with
    | some path => runScript files options path log
    | none => (.ok, runPrompt options input.lines log)

end Program

end LoxLex
