import Mathlib.Data.List.DropRight
import LoxLex.Table

/-!
# The layout of tables

Every cell fits into its column, so filled-up cells of one column are equally long and rows can be
cut apart by length. The widths themselves can be read off the header, whose cells begin with
something else than a blank.

## Main definitions

* `Table.Fits` — whether the cells of a row fit into the columns.
* `Table.Narrow` — whether columns can be filled up.
* `Table.Laid` — whether all rows of a table fit into its columns, and these can be filled up.

## Main statements

* `Table.laid_ofRows`: a table of cells that are not too long is laid out.
* `Table.line_cons_inj`: rows are cut apart by length.
* `Table.line_header_inj`: the widths of the columns are read off the header.
* `Table.format_inj`: the text of a table tells its widths and the text of its rows.
-/

namespace LoxLex

/-! ## Runs of one byte -/

/-- A run of a byte ends where another byte stands. -/
theorem replicate_append_inj {n m : Nat} {b : Byte} {rest rest' : Bytes}
    (hrest : rest.head? ≠ some b) (hrest' : rest'.head? ≠ some b)
    (h : List.replicate n b ++ rest = List.replicate m b ++ rest') : n = m ∧ rest = rest' := by
  induction n generalizing m with
  | zero =>
    cases m with
    | zero => exact ⟨rfl, h⟩
    | succ m => exact absurd (congrArg List.head? h) hrest
  | succ n ih =>
    cases m with
    | zero => exact absurd (congrArg List.head? h).symm hrest'
    | succ m =>
      obtain ⟨rfl, htail⟩ := ih (List.cons.inj h).2
      exact ⟨rfl, htail⟩

namespace Table

variable {widths widths' : List Nat} {width : Nat} {cell cell' next next' : Bytes}
  {cells cells' : List Bytes} {rest rest' : Bytes}

/-! ## Cells in their columns -/

/-- Whether there is a column for every cell, and no cell is longer than its column is wide. -/
def Fits : List Nat → List Bytes → Prop
  | _, [] => True
  | [], _ :: _ => False
  | width :: widths, cell :: cells => cell.length ≤ width ∧ Fits widths cells

/-- Whether the columns with their gaps are within the range of a signed 32-bit word. -/
def Narrow (widths : List Nat) : Prop := ∀ width ∈ widths, width + gap < 0x80000000

@[simp] theorem fits_nil (widths : List Nat) : Fits widths [] := by
  cases widths <;> trivial

theorem fits_map_length (cells : List Bytes) : Fits (cells.map List.length) cells := by
  induction cells with
  | nil => trivial
  | cons cell cells ih => exact ⟨Nat.le_refl _, ih⟩

theorem fits_widen (widths : List Nat) (cells : List Bytes) : Fits (widen widths cells) cells := by
  fun_induction widen widths cells with
  | case1 widths => exact fits_nil widths
  | case2 cells => exact fits_map_length cells
  | case3 width widths cell cells ih => exact ⟨Nat.le_max_right _ _, ih⟩

/-- What fits also fits when there is room for one more row. -/
theorem Fits.widen (h : Fits widths cells) (more : List Bytes) :
    Fits (Table.widen widths more) cells := by
  fun_induction Table.widen widths more generalizing cells with
  | case1 => exact h
  | case2 =>
    cases cells with
    | nil => exact fits_nil _
    | cons => cases h
  | case3 width widths cell more ih =>
    cases cells with
    | nil => exact fits_nil _
    | cons => exact ⟨Nat.le_trans h.1 (Nat.le_max_left _ _), ih h.2⟩

theorem Narrow.widen (h : Narrow widths)
    (hcells : ∀ cell ∈ cells, cell.length + gap < 0x80000000) :
    Narrow (Table.widen widths cells) := by
  fun_induction Table.widen widths cells with
  | case1 => exact h
  | case2 => simpa [Narrow] using hcells
  | case3 width widths cell cells ih =>
    obtain ⟨hwidth, h⟩ := List.forall_mem_cons.mp h
    obtain ⟨hcell, hcells⟩ := List.forall_mem_cons.mp hcells
    exact List.forall_mem_cons.mpr ⟨by omega, ih h hcells⟩

theorem Fits.take (h : Fits widths cells) (n : Nat) : Fits (widths.take n) (cells.take n) := by
  induction n generalizing widths cells with
  | zero => exact fits_nil _
  | succ n ih =>
    match widths, cells, h with
    | widths, [], _ => exact fits_nil _
    | width :: widths, cell :: cells, ⟨hcell, h⟩ => exact ⟨hcell, ih h⟩

theorem Narrow.take (h : Narrow widths) (n : Nat) : Narrow (widths.take n) :=
  fun width hwidth => h width (List.mem_of_mem_take hwidth)

/-- The header and the rows fit, and the columns can be filled up. -/
structure Laid (t : Table) : Prop where
  header : Fits t.widths t.header
  rows : ∀ row ∈ t.rows, Fits t.widths row
  narrow : Narrow t.widths

theorem Laid.addRow {t : Table} (h : t.Laid)
    (hcells : ∀ cell ∈ cells, cell.length + gap < 0x80000000) : (t.addRow cells).Laid where
  header := h.header.widen cells
  rows := by
    refine List.forall_mem_append.mpr ⟨fun row hrow => (h.rows row hrow).widen cells, ?_⟩
    exact List.forall_mem_singleton.mpr (fits_widen t.widths cells)
  narrow := h.narrow.widen hcells

theorem header_foldl_addRow (t : Table) (rows : List (List Bytes)) :
    (rows.foldl addRow t).header = t.header := by
  induction rows generalizing t with
  | nil => rfl
  | cons row rows ih => rw [List.foldl_cons, ih, addRow]

theorem rows_foldl_addRow (t : Table) (rows : List (List Bytes)) :
    (rows.foldl addRow t).rows = t.rows ++ rows := by
  induction rows generalizing t with
  | nil => simp
  | cons row rows ih => rw [List.foldl_cons, ih, addRow, List.append_assoc, List.singleton_append]

@[simp] theorem header_ofRows (header : List Bytes) (rows : List (List Bytes)) :
    (ofRows header rows).header = header := header_foldl_addRow _ rows

@[simp] theorem rows_ofRows (header : List Bytes) (rows : List (List Bytes)) :
    (ofRows header rows).rows = rows := rows_foldl_addRow _ rows

/-- A table is laid out if none of its cells is too long. -/
theorem laid_ofRows {header : List Bytes} {rows : List (List Bytes)}
    (hheader : ∀ cell ∈ header, cell.length + gap < 0x80000000)
    (hrows : ∀ row ∈ rows, ∀ cell ∈ row, cell.length + gap < 0x80000000) :
    (ofRows header rows).Laid := by
  have hbegin : (setHeader {} header).Laid :=
    ⟨fits_widen _ _, nofun, Narrow.widen (fun _ => nofun) hheader⟩
  rw [ofRows]
  generalize setHeader {} header = t at hbegin
  induction rows generalizing t with
  | nil => exact hbegin
  | cons row rows ih =>
    obtain ⟨hrow, hrows⟩ := List.forall_mem_cons.mp hrows
    exact ih hrows _ (hbegin.addRow hrow)

/-! ## Lines cut into columns -/

theorem pad_eq (hwidth : width + gap < 0x80000000) (cell : Bytes) : pad width cell =
    cell ++ List.replicate (width + gap - cell.length) ' '.toUInt8 := by
  rw [pad, List.rightpad, fieldWidth_of_lt hwidth]

theorem length_pad (hwidth : width + gap < 0x80000000) (h : cell.length ≤ width) :
    (pad width cell).length = width + gap := by
  rw [pad_eq hwidth, List.length_append, List.length_replicate]
  omega

/-- A cell that does not end in a blank is read back out of its column. -/
theorem rdropWhile_pad (hwidth : width + gap < 0x80000000)
    (h : cell.getLast? ≠ some ' '.toUInt8) :
    (pad width cell).rdropWhile (· == ' '.toUInt8) = cell := by
  rw [pad_eq hwidth]
  generalize width + gap - cell.length = n
  induction n with
  | zero =>
    rw [List.replicate_zero, List.append_nil, List.rdropWhile_eq_self_iff]
    intro hne hlast
    exact h (by rw [List.getLast?_eq_some_getLast hne, eq_of_beq hlast])
  | succ n ih =>
    rw [List.replicate_succ', ← List.append_assoc, List.rdropWhile_concat_pos _ _ _ (by simp), ih]

theorem pad_injective (hwidth : width + gap < 0x80000000) (h : cell.getLast? ≠ some ' '.toUInt8)
    (h' : cell'.getLast? ≠ some ' '.toUInt8) (heq : pad width cell = pad width cell') :
    cell = cell' := by
  rw [← rdropWhile_pad hwidth h, heq, rdropWhile_pad hwidth h']

theorem line_cons_cons : line (width :: widths) (cell :: next :: cells) =
    pad width cell ++ line widths (next :: cells) := rfl

theorem line_ne_nil (widths : List Nat) (cells : List Bytes) : line widths cells ≠ [] := by
  fun_induction line widths cells with
  | case3 widths cell cells hcells ih => simp [ih]
  | _ => simp [ascii]

/-- The last column is not filled up, so its width does not count. -/
theorem line_take (widths : List Nat) (cells : List Bytes) :
    line (widths.take (cells.length - 1)) cells = line widths cells := by
  fun_induction line widths cells with
  | case1 => rfl
  | case2 => rfl
  | case3 widths cell cells hcells ih =>
    obtain ⟨next, cells, rfl⟩ := List.exists_cons_of_ne_nil hcells
    cases widths with
    | nil => simp [line]
    | cons width widths => simpa [line] using ih

/-- Behind two cells of one column the lines go on at the same place. -/
theorem line_cons_inj (hwidth : width + gap < 0x80000000) (h : cell.length ≤ width)
    (h' : cell'.length ≤ width)
    (heq : line (width :: widths) (cell :: next :: cells) ++ rest =
      line (width :: widths) (cell' :: next' :: cells') ++ rest') :
    pad width cell = pad width cell' ∧
      line widths (next :: cells) ++ rest = line widths (next' :: cells') ++ rest' := by
  rw [line_cons_cons, line_cons_cons, List.append_assoc, List.append_assoc] at heq
  exact List.append_inj heq (by rw [length_pad hwidth h, length_pad hwidth h'])

/-! ## Widths read off the header -/

/-- Whether a blank before the cells can be told from them. -/
def Marked (cells : List Bytes) : Prop :=
  ∀ cell ∈ cells, cell ≠ [] ∧ cell.head? ≠ some ' '.toUInt8

theorem head?_line (hcell : cell ≠ []) : (line widths (cell :: cells)).head? = cell.head? := by
  obtain ⟨b, more, rfl⟩ := List.exists_cons_of_ne_nil hcell
  cases cells with
  | nil => rfl
  | cons next cells => simp [line, pad, List.rightpad]

/-- The width of the first column is read off its cell, if another cell follows. -/
theorem line_cons_width_inj {width' : Nat} (hwidth : width + gap < 0x80000000)
    (hwidth' : width' + gap < 0x80000000) (h : cell.length ≤ width) (h' : cell.length ≤ width')
    (hnext : Marked [next])
    (heq : line (width :: widths) (cell :: next :: cells) ++ rest =
      line (width' :: widths') (cell :: next :: cells) ++ rest') :
    width = width' ∧
      line widths (next :: cells) ++ rest = line widths' (next :: cells) ++ rest' := by
  obtain ⟨hne, hhead⟩ := hnext next (List.mem_singleton_self _)
  have hstop : ∀ (widths : List Nat) (rest : Bytes),
      (line widths (next :: cells) ++ rest).head? ≠ some ' '.toUInt8 := by
    intro widths rest
    rw [List.head?_append, head?_line hne]
    obtain ⟨b, more, rfl⟩ := List.exists_cons_of_ne_nil hne
    simpa using hhead
  rw [line_cons_cons, line_cons_cons, pad_eq hwidth, pad_eq hwidth',
    List.append_assoc, List.append_assoc, List.append_assoc, List.append_assoc,
    List.append_cancel_left_eq] at heq
  obtain ⟨hcount, hrest⟩ := replicate_append_inj (hstop _ _) (hstop _ _) heq
  exact ⟨by omega, hrest⟩

/-- The widths of all columns but the last are read off the header. -/
theorem line_header_inj (hmarked : Marked cells) (h : Fits widths cells) (h' : Fits widths' cells)
    (hn : Narrow widths) (hn' : Narrow widths')
    (heq : line widths cells ++ rest = line widths' cells ++ rest') :
    widths.take (cells.length - 1) = widths'.take (cells.length - 1) ∧ rest = rest' := by
  induction cells generalizing widths widths' with
  | nil => exact ⟨rfl, by simpa [line] using heq⟩
  | cons cell cells ih =>
    match widths, widths', h, h' with
    | width :: widths, width' :: widths', ⟨hcell, h⟩, ⟨hcell', h'⟩ =>
      obtain ⟨hwidth, hmore⟩ := List.forall_mem_cons.mp hn
      obtain ⟨hwidth', hmore'⟩ := List.forall_mem_cons.mp hn'
      obtain ⟨-, hmarked⟩ := List.forall_mem_cons.mp hmarked
      cases cells with
      | nil => exact ⟨rfl, by simpa [line] using heq⟩
      | cons next cells =>
        have hnext : Marked [next] := by simpa [Marked] using hmarked next (by simp)
        obtain ⟨rfl, hlines⟩ := line_cons_width_inj hwidth hwidth' hcell hcell' hnext heq
        obtain ⟨htake, hrest⟩ := ih hmarked h h' hmore hmore' hlines
        exact ⟨by simpa using htake, hrest⟩

/-- Tables with one header and the same text have the same widths, as far as these are filled up,
and the same text in their rows. -/
theorem format_inj {t u : Table} (ht : t.Laid) (hu : u.Laid) (hheader : t.header = u.header)
    (hne : t.header ≠ []) (hmarked : Marked t.header) (h : t.format = u.format) :
    t.widths.take (t.header.length - 1) = u.widths.take (t.header.length - 1) ∧
      t.rows.flatMap (line t.widths) = u.rows.flatMap (line u.widths) := by
  have hfits := hheader ▸ hu.header
  rw [format, format, if_neg hne, if_neg (hheader ▸ hne), ← hheader, List.append_assoc,
    List.append_assoc] at h
  obtain ⟨htake, h⟩ := line_header_inj hmarked ht.header hfits ht.narrow hu.narrow h
  rw [rule, rule, List.append_assoc, List.append_assoc] at h
  have hnewline : ∀ text, (ascii "\n" ++ text).head? ≠ some '-'.toUInt8 := by
    intro text hdash
    exact absurd (Option.some.inj hdash) (by decide)
  obtain ⟨-, h⟩ := replicate_append_inj (hnewline _) (hnewline _) h
  exact ⟨htake, List.append_cancel_left h⟩

end Table

end LoxLex
