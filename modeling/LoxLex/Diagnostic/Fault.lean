import LoxLex.Diagnostic.Basic

/-!
# Faults of a text

What keeps a stretch of a text from being a token, before anyone reports it.

## Main definitions

* `Fault.message`, `Fault.code` — how a fault is reported.
-/

namespace LoxLex

inductive Fault where
  /-- No token begins with `character`. -/
  | unexpectedCharacter (character : Bytes) (span : Span)
  /-- A string is still open where the text ends. The span is that end. -/
  | unterminatedString (span : Span)
deriving DecidableEq, Repr

namespace Fault

def span : Fault → Span
  | unexpectedCharacter _ span => span
  | unterminatedString span => span

def code : Fault → Code
  | unexpectedCharacter .. => .unexpectedCharacter
  | unterminatedString .. => .unterminatedString

def message : Fault → Bytes
  | unexpectedCharacter character _ => ascii "Unexpected character " ++ character
  | unterminatedString _ => ascii "Unterminated String."

/-- The error that reports a fault. -/
def diagnostic (origin : Bytes) (f : Fault) : Diagnostic :=
  ⟨.error, some f.code, origin, f.message, f.span⟩

end Fault

end LoxLex
