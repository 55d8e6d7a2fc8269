import LoxLex.Source.Position

/-!
# Spans

A stretch of a text from one place to another, the end left out, with the number
of the text that it lies in.

## Main definitions

* `Span.atStart`, `Span.atEnd` — a span collapsed to one of its ends.
* `Span.merge` — the least span that covers two.
* `Span.format` — a span for people to read.
-/

namespace LoxLex

structure Span where
  start : Position := {}
  stop : Position := {}
  file : UInt32 := 0
deriving DecidableEq, Repr, Inhabited

namespace Span

/-- The first column of a line whose offset is not known. -/
def atLine (line : UInt32) (file : UInt32 := 0) : Span :=
  ⟨⟨line, 1, 0⟩, ⟨line, 1, 0⟩, file⟩

def atStart (s : Span) : Span := { s with stop := s.start }

def atEnd (s : Span) : Span := { s with start := s.stop }

/-- The least span that covers both. The number of the text is that of `s`. -/
def merge (s t : Span) : Span :=
  ⟨s.start.least t.start, s.stop.greatest t.stop, s.file⟩

/-- The number of bytes covered, as a 64-bit word: it wraps when a span ends before
it starts. -/
def length (s : Span) : UInt64 := s.stop.offset.toUInt64 - s.start.offset.toUInt64

/-- Whether the two ends are one place by line and column. -/
def isPoint (s : Span) : Bool := s.start.line == s.stop.line && s.start.column == s.stop.column

/-- `LINE:COLUMN` for a point, `LINE:COLUMN - LINE:COLUMN` otherwise. -/
def format (s : Span) : Bytes :=
  if s.isPoint then s.start.format else s.start.format ++ ascii " - " ++ s.stop.format

@[simp] theorem start_atStart (s : Span) : s.atStart.start = s.start := rfl
@[simp] theorem stop_atStart (s : Span) : s.atStart.stop = s.start := rfl
@[simp] theorem start_atEnd (s : Span) : s.atEnd.start = s.stop := rfl
@[simp] theorem stop_atEnd (s : Span) : s.atEnd.stop = s.stop := rfl
@[simp] theorem file_merge (s t : Span) : (s.merge t).file = s.file := rfl

end Span

end LoxLex
