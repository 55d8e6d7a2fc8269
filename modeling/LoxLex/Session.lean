import LoxLex.Log
import LoxLex.Scan

/-!
# Sessions

A session takes in any number of sources and then scans them all, once. What the scans find
fault with is kept in one sink.

## Main definitions

* `Session.addSource`, `Session.addFile` — take in a source.
* `Session.scan` — scan every source that was taken in.
* `Refusal` — why a session refuses.
-/

namespace LoxLex

/-- A source of a session; it has no tokens until it is scanned. -/
structure SourceUnit where
  source : Source
  tokens : List Token := []
deriving DecidableEq, Repr

/-- The sink takes diagnostics of any origin; those of the session's own scans come from the
`Scanner`. -/
structure Session where
  units : List SourceUnit := []
  sink : Sink := ⟨ascii "Scanner", []⟩
  scanned : Bool := false
deriving DecidableEq, Repr

inductive Refusal where
  | fileAfterScan
  | sourceAfterScan
  | secondScan
  | missingFile (path : Bytes)
deriving DecidableEq, Repr

def Refusal.message : Refusal → Bytes
  | fileAfterScan => ascii "Cannot add files after scan()"
  | sourceAfterScan => ascii "Cannot add sources after scan()"
  | secondScan => ascii "scan() can only be called once"
  | missingFile path => ascii "Could not open file: " ++ path

namespace Session

/-- The session with one more unit. Units are numbered from zero in the order of their
coming. -/
def withSource (s : Session) (text path : Bytes) : Session :=
  { s with units := s.units ++ [⟨⟨text, path, s.units.length.toUInt32⟩, []⟩] }

def addSource (s : Session) (text path : Bytes) : Except Refusal Session :=
  if s.scanned then .error .sourceAfterScan else .ok (s.withSource text path)

/-- Takes in the file at `path`. A session that was scanned refuses before it looks for the
file. -/
def addFile (s : Session) (files : Bytes → Option Bytes) (path : Bytes) :
    Except Refusal Session :=
  if s.scanned then .error .fileAfterScan
  else match files path with
    | none => .error (.missingFile path)
    | some text => s.addSource text path

/-! ## Scanning -/

/-- What is logged about the scan of one unit. -/
def summary (tokens : Nat) (path : Bytes) (errors : Nat) : List Log.Part :=
  [.text (ascii "Scanned "), .number tokens, .text (ascii " tokens from '"), .text path,
    .text (ascii "' ("), .number errors, .text (ascii " errors)")]

/-- Scans units in their order, with a line on the debug channel for each. -/
def scanUnits : List SourceUnit → Sink → Log → List SourceUnit × Sink × Log
  | [], sink, log => ([], sink, log)
  | u :: rest, before, log =>
    let (tokens, sink) := u.source.scan before
    let errors := sink.errorCount - before.errorCount
    let log := log.post .debug (summary tokens.length u.source.path errors)
    let (units, sink, log) := scanUnits rest sink log
    ({ u with tokens } :: units, sink, log)

/-- The session after the scan of all its units. -/
def scanAll (s : Session) (log : Log) : Session × Log :=
  let (units, sink, log) := scanUnits s.units s.sink log
  ({ units, sink, scanned := true }, log)

/-- Scans all units; a session does so only once. -/
def scan (s : Session) (log : Log) : Except Refusal (Session × Log) :=
  if s.scanned then .error .secondScan else .ok (s.scanAll log)

/-- The tokens of all units. -/
def tokens (s : Session) : List Token := s.units.flatMap (·.tokens)

end Session

end LoxLex
