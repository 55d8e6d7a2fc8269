import LoxLex.Source.Basic

/-!
# Reading a source byte by byte

A cursor stands at a place in a source and remembers an earlier one, the mark, so
that the text read since the mark can be taken.

## Main definitions

* `Source.Cursor.advance`, `Source.Cursor.accept` — the two ways to read a byte.
* `Source.Cursor.readWhile` — reads bytes of one class.
* `Source.Cursor.lexeme`, `Source.Cursor.span` — what was read since the mark.
-/

namespace LoxLex.Source

structure Cursor where
  source : Source
  mark : Position := .start
  here : Position := .start
deriving DecidableEq, Repr

namespace Cursor

/-- The byte under the cursor. -/
def byte? (c : Cursor) : Option Byte := c.source.text[c.here.offset]?

def isAtEnd (c : Cursor) : Bool := c.byte?.isNone

/-- The byte under the cursor; NUL at the end, where a NUL byte reads the same. -/
def peek (c : Cursor) : Byte := c.byte?.getD Byte.nul

/-- The byte behind the one under the cursor; NUL where there is none. -/
def peekNext (c : Cursor) : Byte := c.source.text[c.here.offset + 1]?.getD Byte.nul

/-- Reads the byte under the cursor. At the end there is nothing to read and the
cursor stays. -/
def advance (c : Cursor) : Byte × Cursor :=
  match c.byte? with
  | none => (Byte.nul, c)
  | some b => (b, { c with here := c.here.step b })

/-- Reads the byte under the cursor if it is `b`. Unlike `peek`, this tells a NUL byte from
the end. -/
def accept (c : Cursor) (b : Byte) : Bool × Cursor :=
  if c.byte? = some b then (true, c.advance.2) else (false, c)

/-- Puts the mark where the cursor stands. -/
def markHere (c : Cursor) : Cursor := { c with mark := c.here }

/-- Puts cursor and mark back to the beginning. -/
def reset (c : Cursor) : Cursor := { c with mark := .start, here := .start }

/-- The span from the mark to the cursor. -/
def span (c : Cursor) : Span := ⟨c.mark, c.here, c.source.id⟩

/-- The text between the mark and the cursor. -/
def lexeme (c : Cursor) : Bytes :=
  (c.source.text.drop c.mark.offset).take (c.here.offset - c.mark.offset)

/-! ## Reading on -/

/-- The number of bytes that are left to read. -/
def left (c : Cursor) : Nat := c.source.text.length - c.here.offset

theorem left_advance_lt {c : Cursor} (h : c.isAtEnd = false) : c.advance.2.left < c.left := by
  obtain ⟨b, hb⟩ := Option.isSome_iff_exists.mp (Option.isNone_eq_false_iff.mp h)
  obtain ⟨hlt, -⟩ := List.getElem?_eq_some_iff.mp hb
  simp only [advance, hb, left, Position.offset_step]
  omega

theorem left_advance_le (c : Cursor) : c.advance.2.left ≤ c.left := by
  unfold advance
  split
  · exact Nat.le_refl _
  · simp only [left, Position.offset_step]
    omega

theorem left_accept_le (c : Cursor) (b : Byte) : (c.accept b).2.left ≤ c.left := by
  unfold accept
  split
  · exact c.left_advance_le
  · exact Nat.le_refl _

/-- Reads as long as the byte under the cursor has the property `p`. -/
def readWhile (p : Byte → Bool) (c : Cursor) : Cursor :=
  if c.isAtEnd then c
  else if p c.peek then readWhile p c.advance.2
  else c
termination_by c.left
decreasing_by exact left_advance_lt (by simp_all)

theorem left_readWhile_le (p : Byte → Bool) (c : Cursor) : (c.readWhile p).left ≤ c.left := by
  fun_induction readWhile p c with
  | case2 c _ _ ih => exact Nat.le_trans ih c.left_advance_le
  | _ => exact Nat.le_refl _

end Cursor

end LoxLex.Source
