import LoxLex.Diagnostic.Fault

/-!
# Sinks

A sink keeps diagnostics in the order in which they were reported.

## Main definitions

* `Sink.report` and its short forms — add a diagnostic.
* `Sink.errorCount`, `Sink.count` — how many there are.
-/

namespace LoxLex

structure Sink where
  origin : Bytes
  entries : List Diagnostic := []
deriving DecidableEq, Repr

namespace Sink

/-- Adds a diagnostic as it is, also one of another origin. -/
def report (s : Sink) (d : Diagnostic) : Sink := { s with entries := s.entries ++ [d] }

def info (s : Sink) (message : Bytes) (span : Span) : Sink :=
  s.report ⟨.info, none, s.origin, message, span⟩

def warn (s : Sink) (message : Bytes) (span : Span) : Sink :=
  s.report ⟨.warning, none, s.origin, message, span⟩

def error (s : Sink) (code : Option Code) (message : Bytes) (span : Span) : Sink :=
  s.report ⟨.error, code, s.origin, message, span⟩

/-- An error of which only the line is known. -/
def errorAtLine (s : Sink) (line : UInt32) (message : Bytes) : Sink :=
  s.error none message (.atLine line)

/-- Reports the faults of a text in their order. -/
def addFaults (s : Sink) (faults : List Fault) : Sink :=
  { s with entries := s.entries ++ faults.map (Fault.diagnostic s.origin) }

def clear (s : Sink) : Sink := { s with entries := [] }

@[simp] theorem addFaults_nil (s : Sink) : s.addFaults [] = s := by
  simp [addFaults]

@[simp] theorem addFaults_addFaults (s : Sink) (first second : List Fault) :
    (s.addFaults first).addFaults second = s.addFaults (first ++ second) := by
  simp [addFaults]

/-! ## Counts -/

def errorCount (s : Sink) : Nat := s.entries.countP (·.severity = .error)

def hasErrors (s : Sink) : Bool := 0 < s.errorCount

/-- The number of diagnostics with the given code, of any severity. -/
def count (s : Sink) (code : Option Code) : Nat := s.entries.countP (·.code = code)

@[simp] theorem errorCount_addFaults (s : Sink) (faults : List Fault) :
    (s.addFaults faults).errorCount = s.errorCount + faults.length := by
  simp [addFaults, errorCount, Fault.diagnostic, List.countP_map, Function.comp_def]

end Sink

end LoxLex
