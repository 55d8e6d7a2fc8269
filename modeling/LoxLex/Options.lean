import LoxLex.Log
import LoxLex.Token.Listing

/-!
# Options

What the arguments of the command line ask for.

## Main definitions

* `Options.parse` — the options that a list of arguments gives.
* `Rejection` — why arguments are rejected.
-/

namespace LoxLex

/-- Without a script, lines are read from the standard input. -/
structure Options where
  script : Option Bytes := none
  listing : Listing := .list
  debug : Bool := false
deriving DecidableEq, Repr

inductive Rejection where
  | unknownOption (argument : Bytes)
  | secondScript
deriving DecidableEq, Repr

/-- A second script is rejected without a word. -/
def Rejection.message? : Rejection → Option Bytes
  | unknownOption argument => some (ascii "Unknown option '" ++ argument ++ ascii "'")
  | secondScript => none

/-- Logs why arguments were rejected. -/
def Rejection.report (r : Rejection) (log : Log) : Log :=
  match r.message? with
  | some message => log.post .error [.text message]
  | none => log

namespace Options

/-- Takes in one more argument. What does not begin with two dashes names a script. -/
def add (o : Options) (argument : Bytes) : Except Rejection Options :=
  if argument = ascii "--debug" then .ok { o with debug := true }
  else if argument = ascii "--tokens=list" then .ok { o with listing := .list }
  else if argument = ascii "--tokens=table" then .ok { o with listing := .table }
  else if (ascii "--").isPrefixOf argument then .error (.unknownOption argument)
  else if o.script.isSome then .error .secondScript
  else .ok { o with script := some argument }

/-- Takes in the arguments from first to last, up to the first that is rejected. -/
def parse (arguments : List Bytes) : Except Rejection Options := arguments.foldlM add {}

end Options

end LoxLex
