import Mathlib.Data.Prod.Lex
import Mathlib.Order.MinMax
import LoxLex.Source.Span
import LoxLex.Proofs.PositionOrder

/-!
# The order of spans

Any two spans can be merged, also spans of different texts and spans that end before they start.
Lines and columns are compared lexicographically and offsets on their own, and a span encloses
another if it starts no later and ends no earlier in both ways. Merging is the least upper bound in
this order. Only the number of the text does not follow it.

## Main definitions

* `Position.lineColumn` — the line and the column of a place, ordered lexicographically.
* `Span.Encloses` — whether a span covers another one.
* `Span.Joins` — whether a span is the least one that covers two.

## Main statements

* `Position.eq_of_lineColumn_eq`: a place is its line, its column and its offset.
* `Position.lineColumn_least`, `Position.lineColumn_greatest`: the ends of a pair of places.
* `Span.encloses_merge_iff`: what covers a merged span covers both of its parts.
* `Span.merge_lawful`: the laws of merging.
-/

namespace LoxLex

namespace Position

variable {p q : Position}

/-- The line and the column of a place. Of two places the one on the earlier line is the lesser,
and on one line the one in the earlier column. -/
def lineColumn (p : Position) : ℕ ×ₗ ℕ := toLex (p.line.toNat, p.column.toNat)

theorem eq_of_lineColumn_eq (h : p.lineColumn = q.lineColumn) (hoffset : p.offset = q.offset) :
    p = q := by
  obtain ⟨line, column, offset⟩ := p
  obtain ⟨line', column', offset'⟩ := q
  obtain ⟨hline, hcolumn⟩ := Prod.mk.inj (toLex.injective h)
  obtain rfl := UInt32.toNat_inj.mp hline
  obtain rfl := UInt32.toNat_inj.mp hcolumn
  obtain rfl : offset = offset' := hoffset
  rfl

theorem before_iff_lineColumn_lt : p.before q = true ↔ p.lineColumn < q.lineColumn := by
  rw [before_iff, lineColumn, lineColumn, Prod.Lex.toLex_lt_toLex]

@[simp] theorem offset_least (p q : Position) : (p.least q).offset = min p.offset q.offset := rfl

@[simp] theorem offset_greatest (p q : Position) :
    (p.greatest q).offset = max p.offset q.offset := rfl

@[simp] theorem lineColumn_least (p q : Position) :
    (p.least q).lineColumn = min p.lineColumn q.lineColumn := by
  have hpick : (p.least q).lineColumn = (if q.before p then q else p).lineColumn := rfl
  rw [hpick]
  split
  · next hbefore => exact (min_eq_right (before_iff_lineColumn_lt.mp hbefore).le).symm
  · next hbefore =>
    rw [before_iff_lineColumn_lt, not_lt] at hbefore
    exact (min_eq_left hbefore).symm

@[simp] theorem lineColumn_greatest (p q : Position) :
    (p.greatest q).lineColumn = max p.lineColumn q.lineColumn := by
  have hpick : (p.greatest q).lineColumn = (if p.before q then q else p).lineColumn := rfl
  rw [hpick]
  split
  · next hbefore => exact (max_eq_right (before_iff_lineColumn_lt.mp hbefore).le).symm
  · next hbefore =>
    rw [before_iff_lineColumn_lt, not_lt] at hbefore
    exact (max_eq_left hbefore).symm

end Position

namespace Span

variable {s t u : Span}

/-- Two spans with the same places and the same text are one. -/
theorem eq_of_lineColumn_eq (hstart : s.start.lineColumn = t.start.lineColumn)
    (hstop : s.stop.lineColumn = t.stop.lineColumn) (hoffset : s.start.offset = t.start.offset)
    (hoffset' : s.stop.offset = t.stop.offset) (hfile : s.file = t.file) : s = t := by
  obtain ⟨start, stop, file⟩ := s
  obtain rfl := Position.eq_of_lineColumn_eq hstart hoffset
  obtain rfl := Position.eq_of_lineColumn_eq hstop hoffset'
  obtain rfl : file = t.file := hfile
  rfl

@[simp] theorem start_merge (s t : Span) : (s.merge t).start = s.start.least t.start := rfl

@[simp] theorem stop_merge (s t : Span) : (s.merge t).stop = s.stop.greatest t.stop := rfl

/-! ## Laws -/

theorem merge_assoc (s t u : Span) : (s.merge t).merge u = s.merge (t.merge u) := by
  apply eq_of_lineColumn_eq
  · simp [min_assoc]
  · simp [max_assoc]
  · simp [min_assoc]
  · simp [max_assoc]
  · simp

theorem merge_self (s : Span) : s.merge s = s := by
  apply eq_of_lineColumn_eq <;> simp

/-- The order of two spans counts for the number of the text alone. -/
theorem merge_comm (s t : Span) : s.merge t = { t.merge s with file := s.file } := by
  apply eq_of_lineColumn_eq
  · simp [min_comm]
  · simp [max_comm]
  · simp [min_comm]
  · simp [max_comm]
  · simp

theorem atStart_merge_atEnd (hplace : s.start.lineColumn ≤ s.stop.lineColumn)
    (hoffset : s.start.offset ≤ s.stop.offset) : s.atStart.merge s.atEnd = s := by
  apply eq_of_lineColumn_eq
  · simpa using hplace
  · simpa using hplace
  · simpa using hoffset
  · simpa using hoffset
  · rfl

/-! ## Enclosing -/

/-- A span encloses another if it starts no later and ends no earlier, by line and column as well
as by offset. The numbers of their texts do not count. -/
structure Encloses (s t : Span) : Prop where
  start_le : s.start.lineColumn ≤ t.start.lineColumn
  le_stop : t.stop.lineColumn ≤ s.stop.lineColumn
  offset_start_le : s.start.offset ≤ t.start.offset
  le_offset_stop : t.stop.offset ≤ s.stop.offset

theorem Encloses.refl (s : Span) : s.Encloses s := by
  constructor <;> exact le_rfl

/-- What covers a merged span covers both of its parts, and the other way round. -/
theorem encloses_merge_iff : u.Encloses (s.merge t) ↔ u.Encloses s ∧ u.Encloses t := by
  constructor
  · rintro ⟨hstart, hstop, hoffset, hoffset'⟩
    rw [start_merge, Position.lineColumn_least, le_min_iff] at hstart
    rw [stop_merge, Position.lineColumn_greatest, max_le_iff] at hstop
    rw [start_merge, Position.offset_least, le_min_iff] at hoffset
    rw [stop_merge, Position.offset_greatest, max_le_iff] at hoffset'
    exact ⟨⟨hstart.1, hstop.1, hoffset.1, hoffset'.1⟩, ⟨hstart.2, hstop.2, hoffset.2, hoffset'.2⟩⟩
  · rintro ⟨hs, ht⟩
    constructor
    · simpa using ⟨hs.start_le, ht.start_le⟩
    · simpa using ⟨hs.le_stop, ht.le_stop⟩
    · simpa using ⟨hs.offset_start_le, ht.offset_start_le⟩
    · simpa using ⟨hs.le_offset_stop, ht.le_offset_stop⟩

/-- The least span that covers two: it reaches from the lesser start to the greater end, by line
and column and by offset, and whatever covers the two covers it. -/
structure Joins (s t joined : Span) : Prop where
  start_eq : joined.start.lineColumn = min s.start.lineColumn t.start.lineColumn
  stop_eq : joined.stop.lineColumn = max s.stop.lineColumn t.stop.lineColumn
  offset_start_eq : joined.start.offset = min s.start.offset t.start.offset
  offset_stop_eq : joined.stop.offset = max s.stop.offset t.stop.offset
  encloses_left : joined.Encloses s
  encloses_right : joined.Encloses t
  least : ∀ u : Span, u.Encloses s → u.Encloses t → u.Encloses joined

theorem joins_merge (s t : Span) : Joins s t (s.merge t) := by
  obtain ⟨hs, ht⟩ := encloses_merge_iff.mp (Encloses.refl (s.merge t))
  constructor
  case start_eq => exact Position.lineColumn_least _ _
  case stop_eq => exact Position.lineColumn_greatest _ _
  case offset_start_eq => rfl
  case offset_stop_eq => rfl
  case encloses_left => exact hs
  case encloses_right => exact ht
  case least => exact fun u hs ht => encloses_merge_iff.mpr ⟨hs, ht⟩

/-- Spans of any kind are merged in any grouping and, but for the number of the text, in any order;
the number is that of the first. A span merged with itself stays, two give the least span that
covers both, and a span that does not end before it starts is put together again from its ends. -/
theorem merge_lawful (s t u : Span) :
    (s.merge t).merge u = s.merge (t.merge u) ∧
      s.merge s = s ∧
      s.merge t = { t.merge s with file := s.file } ∧
      (s.merge t).file = s.file ∧
      Joins s t (s.merge t) ∧
      (s.start.lineColumn ≤ s.stop.lineColumn → s.start.offset ≤ s.stop.offset →
        s.atStart.merge s.atEnd = s) :=
  ⟨merge_assoc s t u, merge_self s, merge_comm s t, rfl, joins_merge s t, atStart_merge_atEnd⟩

end Span

end LoxLex
