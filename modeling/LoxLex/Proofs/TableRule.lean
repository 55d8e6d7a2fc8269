import Mathlib.Order.Monotone.Basic
import LoxLex.Proofs.TableHistory

/-!
# The rule under the header

The dashes under a header are as many as the longest line has bytes. Only a table whose lines are
all empty, with one column and nothing in it, has two dashes nevertheless.

## Main definitions

* `Table.longestLine` — the length of the longest line.
* `Table.Ruled` — whether a table is written out with so many dashes.

## Main statements

* `Table.Aligned.length_eq`: a line is as long as its last cell begins and is long.
* `Table.longestLine_eq`: the longest line ends with the last column.
* `Table.ruled_after`: how many dashes a table has.
* `Table.rule_of_empty_lines`: the dashes are not always as many as the longest line has bytes.
-/

namespace LoxLex.Table

variable {ops : List Op} {header cells : List Bytes} {width : Nat → Nat} {text : Bytes}

/-- The number of bytes in the longest of some lines, the newlines not counted. -/
def longestLine (t : Table) (rows : List (List Bytes)) : Nat :=
  greatest (rows.map fun cells => (line t.widths cells).dropLast.length)

/-- Whether a table with this header and these rows is written out with so many dashes. -/
def Ruled (t : Table) (header : List Bytes) (rows : List (List Bytes)) (dashes : Nat) : Prop :=
  t.format = line t.widths header ++ (List.replicate dashes '-'.toUInt8 ++ ascii "\n") ++
    rows.flatMap (line t.widths)

/-! ## Columns -/

theorem columnStart_mono (width : Nat → Nat) : Monotone (columnStart width) := by
  refine monotone_nat_of_le_succ fun j => ?_
  rw [columnStart_succ]
  exact Nat.le_add_right _ _

/-- All columns with their gaps end where one more column would begin. -/
theorem foldr_widths_eq (widths : List Nat) :
    widths.foldr (fun width total => width + gap + total) 0 =
      columnStart (fun i => widths.getD i 0) widths.length := by
  induction widths with
  | nil => rfl
  | cons width widths ih => rw [List.foldr_cons, ih, List.length_cons, columnStart_cons, gap]

/-- A line ends where its last cell does. -/
theorem Aligned.length_eq (h : Aligned width cells text) {j : Nat} (hj : j + 1 = cells.length) :
    text.dropLast.length = columnStart width j + cells[j].length := by
  have hlast := congrArg List.length (h.last j (by omega) hj)
  simp [ascii] at hlast ⊢
  omega

/-- No line is longer than its columns reach. -/
theorem Aligned.length_le (h : Aligned width cells text) {j : Nat} (hj : cells.length ≤ j + 1)
    (hcells : ∀ i (hi : i < cells.length), cells[i].length ≤ width i) :
    text.dropLast.length ≤ columnStart width j + width j := by
  rcases hcount : cells.length with _ | i
  · rw [h.empty (List.length_eq_zero_iff.mp hcount)]
    exact Nat.zero_le _
  · have hcell := hcells i (by omega)
    have hmono := columnStart_mono width (show i + 1 ≤ j + 1 by omega)
    rw [columnStart_succ, columnStart_succ] at hmono
    rw [h.length_eq hcount.symm]
    omega

theorem length_widen (widths : List Nat) (cells : List Bytes) :
    (widen widths cells).length = max widths.length cells.length := by
  fun_induction widen widths cells <;> grind

/-- There are as many columns as the longest row has cells. -/
theorem length_widths_after (ops : List Op) :
    (after ops).widths.length = greatest ((came ops).map List.length) := by
  induction ops using List.reverseRecOn with
  | nil => rfl
  | append_singleton ops op ih =>
    rw [after_concat, widths_exec, came_concat]
    cases op.cells? with
    | none => simpa using ih
    | some cells => simp [length_widen, ih]

theorem length_le_of_mem_came (h : cells ∈ came ops) :
    cells.length ≤ (after ops).widths.length := by
  rw [length_widths_after]
  exact le_greatest (List.mem_map_of_mem h)

theorem le_columnWidth {rows : List (List Bytes)} (h : cells ∈ rows) {i : Nat}
    (hi : i < cells.length) : cells[i].length ≤ columnWidth rows i :=
  le_greatest (List.mem_map_of_mem (List.mem_filterMap.mpr ⟨cells, h, List.getElem?_eq_getElem hi⟩))

/-- A column that any row reaches is as wide as one of its cells. -/
theorem exists_columnWidth_eq {rows : List (List Bytes)} {i : Nat} (h : cells ∈ rows)
    (hi : i < cells.length) :
    ∃ row ∈ rows, ∃ hrow : i < row.length, row[i].length = columnWidth rows i := by
  have hne : (rows.filterMap (·[i]?)).map List.length ≠ [] :=
    List.ne_nil_of_mem (List.mem_map_of_mem
      (List.mem_filterMap.mpr ⟨cells, h, List.getElem?_eq_getElem hi⟩))
  obtain ⟨cell, hcell, hlength⟩ := List.mem_map.mp (greatest_mem hne)
  obtain ⟨row, hrow, hget⟩ := List.mem_filterMap.mp hcell
  obtain ⟨hi, rfl⟩ := List.getElem?_eq_some_iff.mp hget
  exact ⟨row, hrow, hi, hlength⟩

/-! ## The longest line -/

/-- The longest cell of the last column ends the line of its row. -/
theorem exists_last_cell {j : Nat} (hj : (after ops).widths.length = j + 1) :
    ∃ cells ∈ came ops, ∃ h : j + 1 = cells.length,
      cells[j].length = columnWidth (came ops) j := by
  have hne : (came ops).map List.length ≠ [] := by
    intro hnil
    rw [length_widths_after, hnil] at hj
    cases hj
  -- a row with the most cells reaches the last column, but another row may be wider there
  obtain ⟨longest, hlongest, hlength⟩ := List.mem_map.mp (greatest_mem hne)
  rw [← length_widths_after, hj] at hlength
  obtain ⟨cells, hcells, hlt, hcell⟩ := exists_columnWidth_eq hlongest (i := j) (by omega)
  have hle := length_le_of_mem_came hcells
  exact ⟨cells, hcells, by omega, hcell⟩

/-- The longest line ends with the last column. -/
theorem longestLine_eq {rows : List (List Bytes)} {j : Nat}
    (hj : (after ops).widths.length = j + 1) (hrows : ∀ cells, cells ∈ rows ↔ cells ∈ came ops)
    (haligned : ∀ cells ∈ rows,
      Aligned (columnWidth (came ops)) cells (line (after ops).widths cells)) :
    (after ops).longestLine rows =
      columnStart (columnWidth (came ops)) j + columnWidth (came ops) j := by
  obtain ⟨last, hlast, hcount, hcell⟩ := exists_last_cell hj
  have hreaches : columnStart (columnWidth (came ops)) j + columnWidth (came ops) j ∈
      rows.map fun cells => (line (after ops).widths cells).dropLast.length := by
    have hmem := (hrows last).mpr hlast
    exact List.mem_map.mpr ⟨last, hmem, by rw [(haligned last hmem).length_eq hcount, hcell]⟩
  refine Nat.le_antisymm ?_ (le_greatest hreaches)
  obtain ⟨cells, hcells, hlength⟩ := List.mem_map.mp (greatest_mem (List.ne_nil_of_mem hreaches))
  have hcame := (hrows cells).mp hcells
  rw [longestLine, ← hlength]
  exact (haligned cells hcells).length_le (hj ▸ length_le_of_mem_came hcame)
    fun _ => le_columnWidth hcame

/-! ## The rule -/

/-- If one header was set, and it has cells, there are as many dashes as the longest line has bytes,
but two where all lines are empty. -/
theorem ruled_after (ops : List Op) (header : List Bytes) (hheader : headers ops = [header])
    (hne : header ≠ []) (h : ∀ cells ∈ came ops, ∀ cell ∈ cells, cell.length < 2 ^ 31 - 3) :
    let longest := (after ops).longestLine (header :: added ops)
    (after ops).Ruled header (added ops) (if longest = 0 then 2 else longest) := by
  intro longest
  have hafter : (after ops).header = header := by rw [header_after, hheader]; rfl
  have hcame : ∀ cells, cells ∈ header :: added ops ↔ cells ∈ came ops := by
    intro cells
    rw [mem_came_iff, hheader, List.mem_singleton, List.mem_cons]
  have haligned := (laid_after h).aligned_after
  rw [← header_after, hafter] at haligned
  obtain ⟨j, hj⟩ : ∃ j, (after ops).widths.length = j + 1 := by
    have hle := length_le_of_mem_came ((hcame header).mp List.mem_cons_self)
    have hpos := List.length_pos_iff.mpr hne
    exact ⟨(after ops).widths.length - 1, by omega⟩
  have hlongest : longest = _ := longestLine_eq hj hcame haligned
  -- all widths and gaps are two bytes more than the longest line, which has no gap at its end
  have hrule : (after ops).ruleLength = if longest = 0 then 2 else longest := by
    rw [ruleLength, foldr_widths_eq, hj, funext (widths_after ops), columnStart_succ, gap, hlongest]
    grind
  rw [Ruled, format, hafter, if_neg hne, rows_after, rule, hrule]

/-- The longest line is that of a row with more cells than the header. -/
theorem ruled_after_ragged :
    let ops : List Op := [.addRow [[], ascii "bcd", ascii "e"], .setHeader [ascii "lexeme"],
      .addRow [], .addRow [ascii "f", [], ascii "long"]]
    let header := [ascii "lexeme"]
    let longest := (after ops).longestLine (header :: added ops)
    headers ops = [header] ∧ header ≠ [] ∧
      (∀ cells ∈ came ops, ∀ cell ∈ cells, cell.length < 2 ^ 31 - 3) ∧
      (after ops).Ruled header (added ops) (if longest = 0 then 2 else longest) := by
  intro ops header longest
  have hne : header ≠ [] := nofun
  have h : ∀ cells ∈ came ops, ∀ cell ∈ cells, cell.length < 2 ^ 31 - 3 := by decide +kernel
  exact ⟨rfl, hne, h, ruled_after ops header rfl hne h⟩

/-- Under a header of one empty cell there are two dashes, though no line has any bytes. -/
theorem rule_of_empty_lines : ¬ ∀ (ops : List Op) (header : List Bytes),
    headers ops = [header] → header ≠ [] →
      (∀ cells ∈ came ops, ∀ cell ∈ cells, cell.length < 2 ^ 31 - 3) →
      (after ops).Ruled header (added ops) ((after ops).longestLine (header :: added ops)) := by
  intro h
  have hruled := h [.setHeader [[]]] [[]] rfl nofun (by decide +kernel)
  unfold Ruled at hruled
  exact absurd hruled (by decide +kernel)

end LoxLex.Table
