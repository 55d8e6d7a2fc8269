import LoxLex.Bytes

/-!
# Tables

Rows of text set out in columns. A column is as wide as the longest cell that any
header or row has had in it, also a header that was replaced since.

## Main definitions

* `Table.setHeader`, `Table.addRow` — the two ways to fill a table.
* `Table.line` — a row with its cells filled up.
* `Table.format` — the table as lines of text.
-/

namespace LoxLex

structure Table where
  header : List Bytes := []
  rows : List (List Bytes) := []
  widths : List Nat := []
deriving DecidableEq, Repr, Inhabited

namespace Table

/-- Column widths with room for one more row. -/
def widen : List Nat → List Bytes → List Nat
  | widths, [] => widths
  | [], cells => cells.map List.length
  | width :: widths, cell :: cells => max width cell.length :: widen widths cells

def setHeader (t : Table) (cells : List Bytes) : Table :=
  { t with header := cells, widths := widen t.widths cells }

def addRow (t : Table) (cells : List Bytes) : Table :=
  { t with rows := t.rows ++ [cells], widths := widen t.widths cells }

/-- A table with one header and the given rows. -/
def ofRows (header : List Bytes) (rows : List (List Bytes)) : Table :=
  rows.foldl addRow (setHeader {} header)

/-! ## Text -/

/-- The number of blanks between a column and the next. -/
def gap : Nat := 2

/-- The number of bytes that a cell and the blanks behind it take up. It is a signed 32-bit word,
and a negative one fills up nothing. -/
def fieldWidth (width : Nat) : Nat := (Int32.ofNat (width + gap)).toInt.toNat

/-- A cell filled up to the width of its column and the gap. -/
def pad (width : Nat) (cell : Bytes) : Bytes := cell.rightpad (fieldWidth width) ' '.toUInt8

/-- One line: every cell but the last is filled up. -/
def line : List Nat → List Bytes → Bytes
  | _, [] => ascii "\n"
  | _, [cell] => cell ++ ascii "\n"
  | widths, cell :: cells => pad (widths.headD 0) cell ++ line widths.tail cells

/-- The number of dashes under the header: as wide as all columns with the gaps between
them. Where the columns hold nothing at all and there is only one, its gap counts. -/
def ruleLength (t : Table) : Nat :=
  let total := t.widths.foldr (fun width total => width + gap + total) 0
  if gap < total then total - gap else total

def rule (t : Table) : Bytes := List.replicate t.ruleLength '-'.toUInt8 ++ ascii "\n"

/-- The header and the rule under it, unless the header has no cells, and then the rows. -/
def format (t : Table) : Bytes :=
  (if t.header = [] then [] else line t.widths t.header ++ t.rule)
    ++ t.rows.flatMap (line t.widths)

theorem fieldWidth_of_lt {width : Nat} (h : width + gap < 0x80000000) :
    fieldWidth width = width + gap := by
  rw [fieldWidth, Int32.toInt_ofNat_of_lt h, Int.toNat_natCast]

end Table

end LoxLex
