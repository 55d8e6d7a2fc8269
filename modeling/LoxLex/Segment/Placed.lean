import LoxLex.Diagnostic.Fault
import LoxLex.Segment.Basic
import LoxLex.Source.Basic

/-!
# Segments in their places

A source is its segments, one behind the other. In its place a segment is a token, a fault or
neither.

## Main definitions

* `Segment.place` — segments with their spans.
* `Source.placed` — the segments of a source in their places.
* `Placed.token?`, `Placed.fault?` — what a segment is in its place.
-/

namespace LoxLex

/-- A segment and where it stands. -/
structure Placed where
  segment : Segment
  span : Span
deriving DecidableEq, Repr

namespace Placed

/-- The token that a segment is. -/
def token? (p : Placed) : Option Token :=
  p.segment.kind?.map fun kind =>
    { kind, lexeme := p.segment.text, literal := p.segment.literal?,
      line := p.span.stop.line, span := p.span }

def fault? (p : Placed) : Option Fault :=
  match p.segment.shape with
  | .stray => some (.unexpectedCharacter p.segment.text p.span)
  | .unclosed => some (.unterminatedString p.span.atEnd)
  | _ => none

end Placed

/-- Segments one behind the other, the first of them at `start`, in the text with the number
`file`. -/
def Segment.place (file : UInt32) (start : Position) : List Segment → List Placed
  | [] => []
  | s :: rest =>
    let stop := start.after s.text
    ⟨s, ⟨start, stop, file⟩⟩ :: place file stop rest

namespace Source

def placed (s : Source) : List Placed := Segment.place s.id .start s.text.segments

/-- The place where the text ends. -/
def stop (s : Source) : Position := Position.start.after s.text

/-- The token that stands at the end of every source. -/
def eof (s : Source) : Token := { line := s.stop.line, span := ⟨s.stop, s.stop, s.id⟩ }

/-- The faults of a source in their order. -/
def faults (s : Source) : List Fault := s.placed.filterMap Placed.fault?

end Source

end LoxLex
