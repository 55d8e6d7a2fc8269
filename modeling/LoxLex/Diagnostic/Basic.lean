import LoxLex.Source.Span

/-!
# Diagnostics

What a program reports about a text, with its place in it.

## Main definitions

* `Diagnostic.short`, `Diagnostic.long` — the two forms in which one is shown.
-/

namespace LoxLex

inductive Severity where
  | info
  | warning
  | error
deriving DecidableEq, Repr

def Severity.label : Severity → Bytes
  | info => ascii "Info"
  | warning => ascii "Warning"
  | error => ascii "Error"

/-- The faults of a text that have a code of their own. -/
inductive Code where
  | unexpectedCharacter
  | unterminatedString
deriving DecidableEq, Repr

/-- `origin` names the part of a program that made the report. -/
structure Diagnostic where
  severity : Severity
  code : Option Code
  origin : Bytes
  message : Bytes
  span : Span
deriving DecidableEq, Repr

namespace Diagnostic

/-- `Error: message` -/
def labelled (d : Diagnostic) : Bytes := d.severity.label ++ ascii ": " ++ d.message

/-- `[line 3] Error: message`, for a text that needs no name. -/
def short (d : Diagnostic) : Bytes :=
  ascii "[line " ++ Bytes.decimal d.span.start.line.toNat ++ ascii "] " ++ d.labelled

/-- `path:3:7: Error: message` -/
def long (d : Diagnostic) (path : Bytes) : Bytes :=
  path ++ ascii ":" ++ d.span.start.format ++ ascii ": " ++ d.labelled

end Diagnostic

end LoxLex
