import LoxLex.Source.Basic
import LoxLex.Proofs.Lines
import LoxLex.Proofs.PositionOrder

/-!
# Lines by their numbers

A line is found by counting newlines from the beginning of a source. The line of a place is found
so: it is what stands before the place behind the last newline, and what stands behind the place
before the next one.

## Main statements

* `Bytes.afterNewlines_count`: whole lines are skipped by the number of their newlines.
* `Bytes.exists_append_lastLine`: a text is whole lines and a last one.
* `Source.lineText_behind`: the line of a place.
-/

namespace LoxLex

namespace Bytes

variable {text line rest lines : Bytes}

theorem afterNewlines_line (hline : Byte.newline ∉ line) (n : Nat) :
    afterNewlines (n + 1) (line ++ Byte.newline :: rest) = afterNewlines n rest := by
  induction line with
  | nil => rfl
  | cons b line ih => grind [afterNewlines]

/-- Whole lines are skipped by the number of their newlines. -/
theorem afterNewlines_count (hlines : ∀ b ∈ lines.getLast?, b = Byte.newline) (rest : Bytes) :
    afterNewlines (lines.count Byte.newline) (lines ++ rest) = some rest := by
  induction lines using line_induction with
  | nil => simp [afterNewlines]
  | last line hline hne =>
    have hlast := hlines _ (List.getLast?_eq_some_getLast hne)
    exact absurd (hlast ▸ List.getLast_mem hne) hline
  | cons line more hline ih =>
    have hmore : ∀ b ∈ more.getLast?, b = Byte.newline := by
      intro b hb
      apply hlines
      grind
    rw [List.append_assoc, List.cons_append, List.count_append, List.count_eq_zero.mpr hline,
      List.count_cons_self, Nat.zero_add, afterNewlines_line hline, ih hmore]

theorem newline_notMem_lastLine : Byte.newline ∉ lastLine text := by
  intro hmem
  have hnewline := List.mem_takeWhile_imp (List.mem_reverse.mp hmem)
  simp at hnewline

/-- A text is whole lines and a last one. -/
theorem exists_append_lastLine (text : Bytes) :
    ∃ lines, text = lines ++ text.lastLine ∧ ∀ b ∈ lines.getLast?, b = Byte.newline := by
  induction text using List.reverseRecOn with
  | nil => exact ⟨[], rfl, by simp⟩
  | append_singleton text b ih =>
    -- a newline ends a whole line, and every other byte lengthens the last one
    by_cases hb : b = Byte.newline
    · subst hb
      exact ⟨text ++ [Byte.newline], by simp [lastLine], by grind⟩
    · obtain ⟨lines, htext, hlines⟩ := ih
      have hpiece : Byte.newline ∉ [b] := by grind
      have hlast : lastLine (text ++ [b]) = lastLine text ++ [b] := lastLine_append hpiece
      exact ⟨lines, by grind, hlines⟩

/-- A text is a first line and what stands behind it. -/
theorem exists_line_append (text : Bytes) :
    ∃ line rest, text = line ++ rest ∧ Byte.newline ∉ line ∧
      ∀ b ∈ rest.head?, b = Byte.newline := by
  by_cases hmem : Byte.newline ∈ text
  · obtain ⟨line, rest, htext, hline⟩ := List.eq_append_cons_of_mem hmem
    exact ⟨line, Byte.newline :: rest, htext, hline, by grind⟩
  · exact ⟨text, [], by grind⟩

end Bytes

namespace Source

variable {s : Source} {before line rest : Bytes}

/-- The line of a place is what stands around it up to the newlines. -/
theorem lineText_behind (hs : s.text.Countable) (htext : s.text = before ++ (line ++ rest))
    (hline : Byte.newline ∉ line) (hrest : ∀ b ∈ rest.head?, b = Byte.newline) :
    s.lineText (Position.behind before).line =
      Bytes.dropCarriageReturn (before.lastLine ++ line) := by
  obtain ⟨lines, hbefore, hlines⟩ := before.exists_append_lastLine
  have hnumber := Position.toNat_line_behind (htext ▸ hs).of_append
  have hcount : before.count Byte.newline = lines.count Byte.newline := by
    rw [hbefore, List.count_append, List.count_eq_zero.mpr Bytes.newline_notMem_lastLine,
      Nat.add_zero]
  have hsplit : s.text = lines ++ (before.lastLine ++ line ++ rest) := by grind
  have hpositive : (Position.behind before).line ≠ 0 := by
    intro hzero
    rw [hzero, UInt32.toNat_zero] at hnumber
    omega
  have hafter : s.text.afterNewlines ((Position.behind before).line.toNat - 1) =
      some (before.lastLine ++ line ++ rest) := by
    rw [hnumber, Nat.add_sub_cancel_left, hcount, hsplit]
    exact Bytes.afterNewlines_count hlines _
  have hrun : ∀ b ∈ before.lastLine ++ line, decide (b ≠ Byte.newline) := by
    have hlast : Byte.newline ∉ before.lastLine := Bytes.newline_notMem_lastLine
    grind
  have hstop : ∀ b ∈ rest.head?, decide (b ≠ Byte.newline) = false := by simpa using hrest
  rw [lineText, if_neg hpositive, hafter]
  exact congrArg Bytes.dropCarriageReturn (takeWhile_append_stop hrun hstop)

end Source

end LoxLex
