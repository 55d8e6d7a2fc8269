import Mathlib.Algebra.Group.Nat.Defs
import LoxLex.Proofs.Position

/-!
# The order of positions

In a text that is short enough for its lines and columns not to wrap, positions are ordered by
line and column just as their offsets are.

## Main definitions

* `Bytes.Countable` — the texts whose lines and columns do not wrap.
* `Bytes.lastLine` — what stands behind the last newline of a text.

## Main statements

* `Position.toNat_line_behind_append`, `Position.toNat_column_behind_append`: lines and columns
  count on.
* `Position.before_ofOffset_iff`: the order by line and column is that of the offsets.
* `Position.least_ofOffset`, `Position.greatest_ofOffset`: the ends of two places of a text.
-/

namespace LoxLex

namespace Bytes

variable {text rest piece : Bytes}

/-- A text of which every line and every column has a number of its own. -/
def Countable (text : Bytes) : Prop := text.length < 2 ^ 32 - 1

theorem Countable.of_append (h : Countable (text ++ rest)) : text.Countable := by
  unfold Countable at *
  grind

theorem Countable.take (h : text.Countable) (n : Nat) : Countable (text.take n) := by
  unfold Countable at *
  grind

/-- What stands behind the last newline of a text. -/
def lastLine (text : Bytes) : Bytes := (text.reverse.takeWhile (· ≠ Byte.newline)).reverse

theorem length_lastLine_le (text : Bytes) : text.lastLine.length ≤ text.length := by
  have hle : (text.reverse.takeWhile (· ≠ Byte.newline)).length ≤ text.reverse.length :=
    (List.takeWhile_sublist _).length_le
  simpa [lastLine] using hle

theorem lastLine_append (h : Byte.newline ∉ piece) :
    lastLine (text ++ piece) = lastLine text ++ piece := by
  rw [lastLine, List.reverse_append, List.takeWhile_append_of_pos (by grind)]
  simp [lastLine]

end Bytes

namespace Position

variable {before piece text : Bytes} {m n : Nat}

theorem toNat_line_behind (h : before.Countable) :
    (behind before).line.toNat = 1 + before.count Byte.newline := by
  have hcount : before.count Byte.newline ≤ before.length := List.count_le_length
  apply UInt32.toNat_ofNat_of_lt'
  unfold Bytes.Countable at h
  grind

theorem toNat_column_behind (h : before.Countable) :
    (behind before).column.toNat = 1 + before.lastLine.length := by
  have hlength := Bytes.length_lastLine_le before
  rw [Bytes.lastLine, List.length_reverse] at *
  apply UInt32.toNat_ofNat_of_lt'
  unfold Bytes.Countable at h
  grind

theorem line_behind_append (hpiece : Byte.newline ∉ piece) :
    (behind (before ++ piece)).line = (behind before).line := by
  simp [behind, List.count_eq_zero.mpr hpiece]

theorem toNat_line_behind_append (h : Bytes.Countable (before ++ piece)) :
    (behind (before ++ piece)).line.toNat =
      (behind before).line.toNat + piece.count Byte.newline := by
  rw [toNat_line_behind h, toNat_line_behind h.of_append, List.count_append, Nat.add_assoc]

/-- Within a line the columns count on. -/
theorem toNat_column_behind_append (h : Bytes.Countable (before ++ piece))
    (hpiece : Byte.newline ∉ piece) : (behind (before ++ piece)).column.toNat =
      (behind before).column.toNat + piece.length := by
  rw [toNat_column_behind h, toNat_column_behind h.of_append, Bytes.lastLine_append hpiece,
    List.length_append, Nat.add_assoc]

theorem before_iff (p q : Position) : p.before q = true ↔
    p.line.toNat < q.line.toNat ∨
      p.line.toNat = q.line.toNat ∧ p.column.toNat < q.column.toNat := by
  simp [before, UInt32.lt_iff_toNat_lt, UInt32.toNat_inj]

/-- A newline leads to a later line, and all else to a later column. -/
theorem before_behind (hpiece : piece ≠ []) (h : Bytes.Countable (before ++ piece)) :
    (behind before).before (behind (before ++ piece)) = true := by
  have hline := toNat_line_behind_append h
  apply (before_iff _ _).mpr
  by_cases hmem : Byte.newline ∈ piece
  · have hcount := List.count_pos_iff.mpr hmem
    omega
  · have hcount := List.count_eq_zero.mpr hmem
    have hcolumn := toNat_column_behind_append h hmem
    have hlength := List.length_pos_iff.mpr hpiece
    omega

theorem before_ofOffset (h : text.Countable) (hmn : m < n) (hn : n ≤ text.length) :
    (ofOffset text m).before (ofOffset text n) = true := by
  have hsplit : text.take n = text.take m ++ (text.drop m).take (n - m) := by
    rw [← List.take_add]
    congr 1
    omega
  have hpiece : (text.drop m).take (n - m) ≠ [] := by
    apply List.ne_nil_of_length_pos
    rw [List.length_take, List.length_drop]
    omega
  rw [ofOffset, ofOffset, hsplit]
  exact before_behind hpiece (hsplit ▸ h.take n)

theorem not_before_of_before {p q : Position} (h : p.before q = true) : q.before p = false := by
  rw [before_iff] at h
  rw [← Bool.not_eq_true, before_iff]
  omega

/-- Places of one text are ordered by line and column as they are by offset. -/
theorem before_ofOffset_iff (h : text.Countable) (hm : m ≤ text.length) (hn : n ≤ text.length) :
    (ofOffset text m).before (ofOffset text n) = true ↔ m < n := by
  refine ⟨fun hbefore => ?_, fun hmn => before_ofOffset h hmn hn⟩
  by_contra hle
  rcases Nat.lt_or_eq_of_le (Nat.not_lt.mp hle) with hlt | rfl
  · have hback := not_before_of_before (before_ofOffset h hlt hm)
    simp [hback] at hbefore
  · simp [before_iff] at hbefore

theorem offset_ofOffset (hn : n ≤ text.length) : (ofOffset text n).offset = n :=
  List.length_take_of_le hn

theorem with_offset_ofOffset (hn : n ≤ text.length) :
    { ofOffset text n with offset := n } = ofOffset text n :=
  congrArg (Position.mk (ofOffset text n).line (ofOffset text n).column) (offset_ofOffset hn).symm

theorem least_ofOffset (h : text.Countable) (hm : m ≤ text.length) (hn : n ≤ text.length) :
    (ofOffset text m).least (ofOffset text n) = ofOffset text (min m n) := by
  have hiff := before_ofOffset_iff h hn hm
  rw [least, offset_ofOffset hm, offset_ofOffset hn]
  rcases Nat.lt_or_ge n m with hlt | hle
  · rw [if_pos (hiff.mpr hlt), Nat.min_eq_right (Nat.le_of_lt hlt), with_offset_ofOffset hn]
  · rw [if_neg (by grind), Nat.min_eq_left hle, with_offset_ofOffset hm]

theorem greatest_ofOffset (h : text.Countable) (hm : m ≤ text.length) (hn : n ≤ text.length) :
    (ofOffset text m).greatest (ofOffset text n) = ofOffset text (max m n) := by
  have hiff := before_ofOffset_iff h hm hn
  rw [greatest, offset_ofOffset hm, offset_ofOffset hn]
  rcases Nat.lt_or_ge m n with hlt | hle
  · rw [if_pos (hiff.mpr hlt), Nat.max_eq_right (Nat.le_of_lt hlt), with_offset_ofOffset hn]
  · rw [if_neg (by grind), Nat.max_eq_left hle, with_offset_ofOffset hm]

end Position

end LoxLex
