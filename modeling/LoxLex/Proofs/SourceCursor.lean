import LoxLex.Proofs.Position
import LoxLex.Proofs.ScannedSegments

/-!
# Runs of a source cursor

A cursor may be moved, marked, put back and asked anything in any order. However it was used, it
stands in its source and its mark stands at or before it, both have the lines and columns that
counting gives, and what is between them is what was read since the mark was put there.

## Main definitions

* `Source.Cursor.Op` — what can be asked of a cursor.
* `Source.Cursor.after` — what many operations leave.
* `Source.Cursor.readSinceMark` — the bytes that operations read since the mark was last put.
* `Source.Cursor.InPlace` — what holds of a cursor after any operations.

## Main statements

* `Source.Cursor.Stands.exec`: one operation reads a byte, puts the mark, goes back or does nothing.
* `Source.Cursor.Stands.after`: any number of operations leave a cursor in its source.
* `Source.Cursor.after_inPlace`: a cursor is in place however it was used.
-/

namespace LoxLex.Source.Cursor

/-- What can be asked of a cursor. -/
inductive Op where
  | isAtEnd
  | peek
  | peekNext
  | line
  | column
  | position
  | lexeme
  | span
  | advance
  | accept (b : Byte)
  | markHere
  | reset

/-- The cursor behind an operation. A question leaves it as it is. -/
def Op.exec (op : Op) (c : Cursor) : Cursor :=
  match op with
  | advance => c.advance.2
  | accept b => (c.accept b).2
  | markHere => c.markHere
  | reset => c.reset
  | isAtEnd | peek | peekNext | line | column | position | lexeme | span => c

/-- The cursor behind many operations. -/
def after (c : Cursor) (ops : List Op) : Cursor := ops.foldl (fun c op => op.exec c) c

/-- What has been read since the mark once the operation is done: an advance that is not at the end
reads the byte that it answers, and an accepted byte is read. Where the mark is put, nothing has
been read since. -/
def Op.readAfter (op : Op) (c : Cursor) (read : Bytes) : Bytes :=
  match op with
  | advance => if c.isAtEnd then read else read ++ [c.advance.1]
  | accept b => if (c.accept b).1 then read ++ [b] else read
  | markHere | reset => []
  | _ => read

/-- The bytes that operations read since the mark was last put, if `read` was read since then
before them. -/
def readSinceMark (read : Bytes) (c : Cursor) : List Op → Bytes
  | [] => read
  | op :: ops => readSinceMark (op.readAfter c read) (op.exec c) ops

variable {s : Source} {c : Cursor} {before read left : Bytes} {b : Byte}

theorem isAtEnd_eq_false {left : Bytes} (h : c.rest = b :: left) : c.isAtEnd = false := by
  rw [← Bool.not_eq_true, isAtEnd_iff, h]
  exact List.cons_ne_nil b left

theorem advance_of_isAtEnd (h : c.isAtEnd = true) : c.advance = (Byte.nul, c) := by
  rw [isAtEnd, Option.isNone_iff_eq_none] at h
  simp [advance, h]

/-! ## Where a cursor stands -/

/-- The text of the source comes apart into what is before the mark, what was read since and what
is left, and mark and cursor stand between these parts. -/
structure Stands (s : Source) (before read left : Bytes) (c : Cursor) : Prop where
  text_eq : s.text = before ++ (read ++ left)
  source_eq : c.source = s
  mark_eq : c.mark = .behind before
  here_eq : c.here = .behind (before ++ read)

namespace Stands

theorem fresh (s : Source) : Stands s [] [] s.text { source := s } := ⟨rfl, rfl, rfl, rfl⟩

theorem offset_here (h : Stands s before read left c) :
    c.here.offset = (before ++ read).length :=
  congrArg Position.offset h.here_eq

theorem offset_mark (h : Stands s before read left c) : c.mark.offset = before.length :=
  congrArg Position.offset h.mark_eq

theorem drop_here (h : Stands s before read left c) : s.text.drop c.here.offset = left := by
  rw [h.offset_here, h.text_eq, ← List.append_assoc, List.drop_left]

theorem rest_eq (h : Stands s before read left c) : c.rest = left := by
  rw [rest, h.source_eq, h.drop_here]

/-- Reading a byte lengthens what was read and shortens what is left. -/
theorem past (h : Stands s before read (b :: left) c) :
    Stands s before (read ++ [b]) left (c.past [b]) := by
  constructor
  case text_eq => simp [h.text_eq]
  case source_eq => exact h.source_eq
  case mark_eq => exact h.mark_eq
  case here_eq =>
    have hstep : c.here.after [b] = c.here.step b := rfl
    rw [Cursor.past, hstep, h.here_eq, ← Position.behind_concat, List.append_assoc]

theorem markHere (h : Stands s before read left c) :
    Stands s (before ++ read) [] left c.markHere := by
  constructor
  case text_eq => simp [h.text_eq]
  case source_eq => exact h.source_eq
  case mark_eq => exact h.here_eq
  case here_eq => rw [List.append_nil]; exact h.here_eq

theorem reset (h : Stands s before read left c) : Stands s [] [] s.text c.reset :=
  ⟨rfl, h.source_eq, rfl, rfl⟩

/-- One operation reads a byte, puts the mark, goes back or does nothing. -/
theorem exec (h : Stands s before read left c) (op : Op) :
    ∃ before' left', Stands s before' (op.readAfter c read) left' (op.exec c) := by
  cases op with
  | advance =>
    refine ⟨before, left.tail, ?_⟩
    cases left with
    | nil =>
      have hend : c.isAtEnd = true := isAtEnd_iff.mpr h.rest_eq
      simpa [Op.exec, Op.readAfter, hend, advance_of_isAtEnd hend] using h
    | cons b left =>
      have hend : c.isAtEnd = false := isAtEnd_eq_false h.rest_eq
      simpa [Op.exec, Op.readAfter, hend, advance_eq h.rest_eq] using h.past
  | accept b =>
    by_cases hb : left.head? = some b
    · obtain ⟨left, rfl⟩ := List.head?_eq_some_iff.mp hb
      refine ⟨before, left, ?_⟩
      simpa [Op.exec, Op.readAfter, accept_of_head h.rest_eq] using h.past
    · have hrefused : c.accept b = (false, c) := accept_of_ne (h.rest_eq ▸ hb)
      refine ⟨before, left, ?_⟩
      simpa [Op.exec, Op.readAfter, hrefused] using h
  | markHere => exact ⟨_, _, h.markHere⟩
  | reset => exact ⟨_, _, h.reset⟩
  | _ => exact ⟨before, left, h⟩

/-- Any number of operations leave a cursor in its source. -/
theorem after (h : Stands s before read left c) (ops : List Op) :
    ∃ before' left', Stands s before' (readSinceMark read c ops) left' (c.after ops) := by
  induction ops generalizing before read left c with
  | nil => exact ⟨before, left, h⟩
  | cons op ops ih =>
    obtain ⟨before', left', hstep⟩ := h.exec op
    exact ih hstep

theorem lexeme_eq (h : Stands s before read left c) : c.lexeme = read := by
  have hlength : c.here.offset - c.mark.offset = read.length := by
    rw [h.offset_here, h.offset_mark, List.length_append, Nat.add_sub_cancel_left]
  rw [lexeme, hlength, h.source_eq, h.offset_mark, h.text_eq, List.drop_left, List.take_left]

theorem here_eq_ofOffset (h : Stands s before read left c) :
    c.here = .ofOffset s.text c.here.offset := by
  rw [h.offset_here, h.text_eq, ← List.append_assoc, Position.ofOffset_length_append, h.here_eq]

theorem mark_eq_ofOffset (h : Stands s before read left c) :
    c.mark = .ofOffset s.text c.mark.offset := by
  rw [h.offset_mark, h.text_eq, Position.ofOffset_length_append, h.mark_eq]

end Stands

/-! ## Runs -/

/-- What holds of a cursor in a source once it has read `read` since its mark:
the mark stands at or before it and neither is beyond the end of the source;
line and column of both are those of their offsets;
what is between them is what was read, and the span has the places of both;
at the end it sees NUL twice, reads nothing, and accepts no byte, not even NUL;
before the end it sees the byte ahead and the next one, or NUL where there is none, it reads the
byte ahead and goes one offset further on, and it accepts this byte and no other;
what is refused changes nothing, and a reset cursor is a fresh one. -/
structure InPlace (s : Source) (read : Bytes) (c : Cursor) : Prop where
  source_eq : c.source = s
  mark_add_length : c.mark.offset + read.length = c.here.offset
  mark_le_here : c.mark.offset ≤ c.here.offset
  here_le_length : c.here.offset ≤ s.text.length
  here_eq : c.here = .ofOffset s.text c.here.offset
  mark_eq : c.mark = .ofOffset s.text c.mark.offset
  lexeme_eq : c.lexeme = read
  span_eq : c.span = ⟨.ofOffset s.text c.mark.offset, .ofOffset s.text c.here.offset, s.id⟩
  isAtEnd_iff : c.isAtEnd = true ↔ c.here.offset = s.text.length
  at_end : s.text.drop c.here.offset = [] → c.peek = Byte.nul ∧ c.peekNext = Byte.nul ∧
    c.advance = (Byte.nul, c) ∧ ∀ b, c.accept b = (false, c)
  ahead : ∀ b left, s.text.drop c.here.offset = b :: left →
    c.peek = b ∧ c.peekNext = left.head?.getD Byte.nul ∧
      c.advance = (b, { c with here := .ofOffset s.text (c.here.offset + 1) }) ∧
      c.accept b = (true, c.advance.2) ∧ ∀ other, other ≠ b → c.accept other = (false, c)
  refused : ∀ b, (c.accept b).1 = false → (c.accept b).2 = c
  reset_eq : c.reset = { source := s }

theorem peekNext_of_isAtEnd (h : c.rest = []) : c.peekNext = Byte.nul := by
  have hlength : c.source.text.length ≤ c.here.offset + 1 :=
    (List.drop_eq_nil_iff.mp h).trans (Nat.le_succ _)
  rw [peekNext, List.getElem?_eq_none hlength]
  rfl

theorem Stands.inPlace (h : Stands s before read left c) : c.InPlace s read := by
  have hhere := h.offset_here
  have hmark := h.offset_mark
  have hlength := congrArg List.length h.text_eq
  simp only [List.length_append] at hhere hlength
  constructor
  case source_eq => exact h.source_eq
  case mark_add_length => omega
  case mark_le_here => omega
  case here_le_length => omega
  case here_eq => exact h.here_eq_ofOffset
  case mark_eq => exact h.mark_eq_ofOffset
  case lexeme_eq => exact h.lexeme_eq
  case span_eq => rw [span, h.source_eq, ← h.here_eq_ofOffset, ← h.mark_eq_ofOffset]
  case isAtEnd_iff =>
    rw [isAtEnd_iff, h.rest_eq, ← List.length_eq_zero_iff]
    omega
  case at_end =>
    intro hnil
    have hrest : c.rest = [] := by rw [h.rest_eq, ← h.drop_here, hnil]
    have hend : c.isAtEnd = true := isAtEnd_iff.mpr hrest
    refine ⟨?_, peekNext_of_isAtEnd hrest, advance_of_isAtEnd hend, fun b => accept_of_ne ?_⟩
    · rw [peek_eq, hrest]
      rfl
    · simp [hrest]
  case ahead =>
    intro b tail htail
    obtain rfl : left = b :: tail := by rw [← h.drop_here, htail]
    have hnext : (c.past [b]).here = .ofOffset s.text (c.here.offset + 1) := by
      have hpast := h.past.here_eq_ofOffset
      rwa [h.past.offset_here, ← List.append_assoc, List.length_append, ← h.offset_here] at hpast
    have hread : c.past [b] = { c with here := .ofOffset s.text (c.here.offset + 1) } := by
      rw [← hnext]
      rfl
    refine ⟨?_, peekNext_eq h.rest_eq, ?_, ?_, fun other hne => accept_of_ne ?_⟩
    · rw [peek_eq, h.rest_eq]
      rfl
    · rw [advance_eq h.rest_eq, hread]
    · rw [accept_of_head h.rest_eq, advance_eq h.rest_eq]
    · simpa [h.rest_eq] using hne.symm
  case refused =>
    intro b
    unfold accept
    split <;> simp
  case reset_eq => rw [Cursor.reset, h.source_eq]

/-- A fresh cursor is in place after any operations, and what is between its mark and it is what
these operations read since the mark was last put. -/
theorem after_inPlace (s : Source) (ops : List Op) :
    (({ source := s } : Cursor).after ops).InPlace s (readSinceMark [] { source := s } ops) := by
  obtain ⟨before, left, h⟩ := (Stands.fresh s).after ops
  exact h.inPlace

end LoxLex.Source.Cursor
