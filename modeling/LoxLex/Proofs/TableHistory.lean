import Mathlib.Algebra.GroupWithZero.Nat
import Mathlib.Data.List.Induction
import LoxLex.Proofs.TableLayout

/-!
# Histories of a table

Headers and rows come in any order and with any numbers of cells, and a table may be written out
at any time. Its columns are as wide as the longest cells that ever came, and every line is set
out by these widths, also the lines of rows that came before.

## Main definitions

* `Table.Op`, `Table.after` — what can be done with a table, and what many operations leave.
* `Table.columnWidth` — the length of the longest cell in a column.
* `Table.Aligned` — whether every cell of a line begins where its column does.
* `Table.SetOut` — what holds of a table after any operations.

## Main statements

* `Table.widths_after`: the widths are the lengths of the longest cells that ever came.
* `Table.aligned_line`: the line of a row that fits is aligned.
* `Table.history_setOut`: every history gives a table that is set out.
-/

namespace LoxLex

/-- The greatest of some numbers, and 0 if there are none. -/
def greatest (ns : List Nat) : Nat := ns.foldr max 0

@[simp] theorem greatest_nil : greatest [] = 0 := rfl

@[simp] theorem greatest_cons (n : Nat) (ns : List Nat) :
    greatest (n :: ns) = max n (greatest ns) := rfl

@[simp] theorem greatest_append (ns ms : List Nat) :
    greatest (ns ++ ms) = max (greatest ns) (greatest ms) := by
  induction ns with
  | nil => simp
  | cons n ns ih => rw [List.cons_append, greatest_cons, greatest_cons, ih, Nat.max_assoc]

theorem le_greatest {n : Nat} {ns : List Nat} (h : n ∈ ns) : n ≤ greatest ns := by
  induction ns with
  | nil => cases h
  | cons m ns ih => grind [greatest_cons]

theorem greatest_mem {ns : List Nat} (h : ns ≠ []) : greatest ns ∈ ns := by
  induction ns with
  | nil => exact absurd rfl h
  | cons m ns ih =>
    rcases ns with _ | ⟨n, ns⟩
    · simp
    · grind [greatest_cons]

namespace Table

/-- What can be done with a table. -/
inductive Op where
  | setHeader (cells : List Bytes)
  | addRow (cells : List Bytes)
  | format

variable {t : Table} {ops : List Op} {cells : List Bytes} {widths : List Nat}

/-- The text that an operation answers, if it answers any, and the table behind it. -/
def Op.exec (t : Table) : Op → Option Bytes × Table
  | setHeader cells => (none, t.setHeader cells)
  | addRow cells => (none, t.addRow cells)
  | format => (some t.format, t)

/-- What operations leave of an empty table. -/
def after (ops : List Op) : Table := ops.foldl (fun t op => (op.exec t).2) {}

theorem after_concat (ops : List Op) (op : Op) :
    after (ops ++ [op]) = (op.exec (after ops)).2 := by
  simp [after]

/-! ## What came -/

def Op.header? : Op → Option (List Bytes)
  | setHeader cells => some cells
  | _ => none

def Op.row? : Op → Option (List Bytes)
  | addRow cells => some cells
  | _ => none

/-- The cells that an operation brings, as a header or as a row. -/
def Op.cells? : Op → Option (List Bytes)
  | setHeader cells => some cells
  | addRow cells => some cells
  | format => none

/-- The headers that were set, from first to last. -/
def headers (ops : List Op) : List (List Bytes) := ops.filterMap Op.header?

/-- The rows that were added, from first to last. -/
def added (ops : List Op) : List (List Bytes) := ops.filterMap Op.row?

/-- All headers and rows that ever came. -/
def came (ops : List Op) : List (List Bytes) := ops.filterMap Op.cells?

@[simp] theorem came_concat (ops : List Op) (op : Op) :
    came (ops ++ [op]) = came ops ++ op.cells?.toList := by
  cases op <;> simp [came, Op.cells?]

theorem mem_came_iff : cells ∈ came ops ↔ cells ∈ headers ops ∨ cells ∈ added ops := by
  have hor : ∀ op : Op, op.cells? = some cells ↔
      op.header? = some cells ∨ op.row? = some cells := by
    intro op
    cases op <;> simp [Op.cells?, Op.header?, Op.row?]
  simp only [came, headers, added, List.mem_filterMap, hor, and_or_left, exists_or]

theorem header_after (ops : List Op) : (after ops).header = (headers ops).getLastD [] := by
  induction ops using List.reverseRecOn with
  | nil => rfl
  | append_singleton ops op ih =>
    rw [after_concat]
    cases op <;> simp [Op.exec, setHeader, addRow, headers, Op.header?, ih]

theorem rows_after (ops : List Op) : (after ops).rows = added ops := by
  induction ops using List.reverseRecOn with
  | nil => rfl
  | append_singleton ops op ih =>
    rw [after_concat]
    cases op <;> simp [Op.exec, setHeader, addRow, added, Op.row?, ih]

/-! ## The widths of the columns -/

/-- The length of the longest cell with the index `i` in some rows. -/
def columnWidth (rows : List (List Bytes)) (i : Nat) : Nat :=
  greatest ((rows.filterMap (·[i]?)).map List.length)

theorem columnWidth_concat (rows : List (List Bytes)) (cells : List Bytes) (i : Nat) :
    columnWidth (rows ++ [cells]) i =
      max (columnWidth rows i) ((cells[i]?.map List.length).getD 0) := by
  cases h : cells[i]? <;> simp [columnWidth, h]

/-- Room for one more row makes each column as wide as its cell, if it is not wider. -/
theorem getD_widen (widths : List Nat) (cells : List Bytes) (i : Nat) :
    (widen widths cells).getD i 0 = max (widths.getD i 0) ((cells[i]?.map List.length).getD 0) := by
  fun_induction widen widths cells generalizing i with
  | case1 => simp
  | case2 => simp
  | case3 width widths cell cells ih =>
    cases i with
    | zero => rfl
    | succ i => simpa using ih i

/-- All that an operation does to the widths. -/
theorem widths_exec (op : Op) (t : Table) :
    (op.exec t).2.widths = op.cells?.elim t.widths (widen t.widths) := by
  cases op <;> rfl

/-- Every column is as wide as the longest cell that ever came to it. -/
theorem widths_after (ops : List Op) (i : Nat) :
    (after ops).widths.getD i 0 = columnWidth (came ops) i := by
  induction ops using List.reverseRecOn with
  | nil => rfl
  | append_singleton ops op ih =>
    rw [after_concat, widths_exec, came_concat]
    cases op.cells? with
    | none => simpa using ih
    | some cells =>
      rw [Option.elim_some, getD_widen, ih, Option.toList_some, columnWidth_concat]

theorem Laid.setHeader (h : t.Laid)
    (hcells : ∀ cell ∈ cells, cell.length + gap < 0x80000000) : (t.setHeader cells).Laid where
  header := fits_widen t.widths cells
  rows := fun row hrow => (h.rows row hrow).widen cells
  narrow := h.narrow.widen hcells

/-- A table is laid out if none of the cells that came was too long. -/
theorem laid_after (h : ∀ cells ∈ came ops, ∀ cell ∈ cells, cell.length < 2 ^ 31 - 3) :
    (after ops).Laid := by
  have hgap : gap = 2 := rfl
  induction ops using List.reverseRecOn with
  | nil => exact ⟨fits_nil _, nofun, nofun⟩
  | append_singleton ops op ih =>
    rw [came_concat] at h
    obtain ⟨hbefore, hop⟩ := List.forall_mem_append.mp h
    have hlaid := ih hbefore
    have hcells : ∀ cells ∈ op.cells?, ∀ cell ∈ cells, cell.length + gap < 0x80000000 := by
      intro cells hcells cell hcell
      have := hop cells (Option.mem_toList.mpr hcells) cell hcell
      omega
    rw [after_concat]
    cases op with
    | setHeader cells => exact hlaid.setHeader (hcells cells rfl)
    | addRow cells => exact hlaid.addRow (hcells cells rfl)
    | format => exact hlaid

/-! ## Lines -/

/-- Where a column begins, if the columns have these widths. -/
def columnStart (width : Nat → Nat) (j : Nat) : Nat := ((List.range j).map fun i => width i + 2).sum

theorem columnStart_succ (width : Nat → Nat) (j : Nat) :
    columnStart width (j + 1) = columnStart width j + (width j + 2) := by
  simp [columnStart, List.range_succ]

theorem columnStart_cons (width : Nat) (widths : List Nat) (j : Nat) :
    columnStart (fun i => (width :: widths).getD i 0) (j + 1) =
      width + 2 + columnStart (fun i => widths.getD i 0) j := by
  simp [columnStart, List.range_succ_eq_map, Function.comp_def]

/-- A line in which every cell begins where its column does. Two blanks or more follow it, up to
the next column, but after the last cell the line ends at once. A row without cells is an empty
line. -/
structure Aligned (width : Nat → Nat) (cells : List Bytes) (text : Bytes) : Prop where
  empty : cells = [] → text = ascii "\n"
  filled : ∀ j (h : j + 1 < cells.length), ∃ n, 2 ≤ n ∧
    columnStart width j + (cells[j].length + n) = columnStart width (j + 1) ∧
    cells[j] ++ List.replicate n ' '.toUInt8 <+: text.drop (columnStart width j)
  last : ∀ j (h : j < cells.length), j + 1 = cells.length →
    text.drop (columnStart width j) = cells[j] ++ ascii "\n"

/-- Behind the first column a line goes on as the line of the other cells. -/
theorem drop_line {width : Nat} {cell next : Bytes} (hwidth : width + gap < 0x80000000)
    (h : cell.length ≤ width) (n : Nat) :
    (line (width :: widths) (cell :: next :: cells)).drop (width + 2 + n) =
      (line widths (next :: cells)).drop n := by
  have hlength : width + 2 = (pad width cell).length := (length_pad hwidth h).symm
  rw [line_cons_cons, hlength, ← List.drop_drop, List.drop_left]

/-- The line of a row that fits is aligned. -/
theorem aligned_line (h : Fits widths cells) (hnarrow : Narrow widths) :
    Aligned (fun i => widths.getD i 0) cells (line widths cells) := by
  induction cells generalizing widths with
  | nil => exact ⟨fun _ => rfl, nofun, nofun⟩
  | cons cell cells ih =>
    match widths, h with
    | width :: widths, ⟨hcell, h⟩ =>
      obtain ⟨hwidth, hnarrow⟩ := List.forall_mem_cons.mp hnarrow
      cases cells with
      | nil =>
        constructor
        case empty => nofun
        case filled => simp
        case last =>
          intro j hj _
          obtain rfl : j = 0 := by simpa using hj
          rfl
      | cons next cells =>
        -- the columns of the other cells begin behind the first one, `columnStart_cons`
        have hrest := ih h hnarrow
        constructor
        case empty => nofun
        case filled =>
          intro j hj
          cases j with
          | zero =>
            refine ⟨width + 2 - cell.length, by omega, ?_, ?_⟩
            · simp only [columnStart_succ, List.getElem_cons_zero, List.getD_cons_zero]
              omega
            · rw [List.getElem_cons_zero, line_cons_cons, pad_eq hwidth]
              exact List.prefix_append _ _
          | succ j =>
            obtain ⟨n, hn, hend, hbegins⟩ := hrest.filled j (by simpa using hj)
            refine ⟨n, hn, ?_, ?_⟩
            · rw [columnStart_cons, columnStart_cons, ← hend, List.getElem_cons_succ, Nat.add_assoc]
            · rwa [columnStart_cons, drop_line hwidth hcell]
        case last =>
          intro j hj hlast
          cases j with
          | zero => simp at hlast
          | succ j =>
            rw [columnStart_cons, drop_line hwidth hcell]
            exact hrest.last j (by simpa using hj) (by simpa using hlast)

/-- So all lines of a table are aligned to the longest cells that ever came. -/
theorem Laid.aligned_after (h : (after ops).Laid) :
    ∀ cells ∈ (headers ops).getLastD [] :: added ops,
      Aligned (columnWidth (came ops)) cells (line (after ops).widths cells) := by
  have hwidths : columnWidth (came ops) = fun i => (after ops).widths.getD i 0 :=
    funext fun i => (widths_after ops i).symm
  rw [hwidths, ← header_after, ← rows_after]
  refine List.forall_mem_cons.mpr ⟨aligned_line h.header h.narrow, ?_⟩
  exact fun row hrow => aligned_line (h.rows row hrow) h.narrow

/-! ## Histories -/

/-- What holds of a table after the operations `ops`. What is written out is the line of the last
header and a line of dashes below it, unless that header has no cells or none was set, and then a
line for each row, from first to last. All these lines are aligned to columns as wide as the
longest cell that ever came to them. The table counts the rows that were added, and writing it
out changes nothing. -/
structure SetOut (ops : List Op) (t : Table) : Prop where
  written : ∃ dashes, 0 < dashes ∧ (Op.format.exec t).1 = some (
    (if (headers ops).getLastD [] = [] then [] else
      line t.widths ((headers ops).getLastD []) ++
        (List.replicate dashes '-'.toUInt8 ++ ascii "\n")) ++
      (added ops).flatMap (line t.widths))
  aligned : ∀ cells ∈ (headers ops).getLastD [] :: added ops,
    Aligned (columnWidth (came ops)) cells (line t.widths cells)
  count_eq : t.rows.length = (added ops).length
  unchanged : ∀ more, after (ops ++ .format :: more) = after (ops ++ more)

theorem Fits.ruleLength_pos (h : Fits t.widths cells) (hne : cells ≠ []) : 0 < t.ruleLength := by
  obtain ⟨cell, cells, rfl⟩ := List.exists_cons_of_ne_nil hne
  rcases hwidths : t.widths with _ | ⟨width, widths⟩
  · rw [hwidths] at h
    cases h
  · simp only [ruleLength, hwidths, List.foldr_cons, gap]
    split <;> omega

theorem Laid.exists_format_eq (h : t.Laid) : ∃ dashes, 0 < dashes ∧ t.format =
    (if t.header = [] then [] else
      line t.widths t.header ++ (List.replicate dashes '-'.toUInt8 ++ ascii "\n")) ++
      t.rows.flatMap (line t.widths) := by
  by_cases hheader : t.header = []
  · exact ⟨1, Nat.one_pos, by simp [format, hheader]⟩
  · exact ⟨t.ruleLength, h.header.ruleLength_pos hheader, rfl⟩

/-- Every history of operations, with cells that are not too long for a signed 32-bit word, gives
a table that is set out. -/
theorem history_setOut (ops : List Op)
    (h : ∀ cells ∈ came ops, ∀ cell ∈ cells, cell.length < 2 ^ 31 - 3) :
    SetOut ops (after ops) := by
  have hlaid := laid_after h
  constructor
  case written =>
    obtain ⟨dashes, hdashes, hformat⟩ := hlaid.exists_format_eq
    rw [header_after, rows_after] at hformat
    exact ⟨dashes, hdashes, congrArg some hformat⟩
  case aligned => exact hlaid.aligned_after
  case count_eq => rw [rows_after]
  case unchanged => simp [after, Op.exec]

/-- The first header is longer than all that came before and after it, and was replaced. -/
theorem history_setOut_ragged :
    let ops : List Op := [.addRow [ascii "a", ascii "bcd"], .setHeader [ascii "lexeme"], .format,
      .setHeader [ascii "x", [], ascii "z"], .addRow [], .addRow [ascii "ef"]]
    (∀ cells ∈ came ops, ∀ cell ∈ cells, cell.length < 2 ^ 31 - 3) ∧ SetOut ops (after ops) := by
  intro ops
  have h : ∀ cells ∈ came ops, ∀ cell ∈ cells, cell.length < 2 ^ 31 - 3 := by decide +kernel
  exact ⟨h, history_setOut ops h⟩

example : (after [.setHeader [ascii "lexeme"], .addRow [ascii "a", ascii "bcd"],
    .setHeader [ascii "x", [], ascii "z"], .addRow []]).format =
    ascii "x            z\n--------------\na       bcd\n\n" := by
  decide +kernel

end Table

end LoxLex
