import LoxLex.Proofs.DecimalText
import LoxLex.Proofs.ListDecoding
import LoxLex.Proofs.TableLayout
import LoxLex.Token.Cursor

/-!
# Reading a table of tokens back

The cells of a table are raw bytes, and a string may hold quotes, newlines and runs of blanks. But
the header tells how wide the columns are, so the rows are cut into their cells by length, and the
blanks behind a lexeme follow the quote that ends its cell.

## Main definitions

* `Token.tabled` — what a table tells of a token.

## Main statements

* `Token.selfDelimiting_cells`: a row tells the token that it is about and where it ends.
* `Source.scan_table_eq_iff`: scans with the same table have the same kinds, lexemes, literals and
  lines.
-/

namespace LoxLex

namespace Bytes

theorem newline_notMem_decimal (n : Nat) : Byte.newline ∉ decimal n := by
  intro hmem
  cases isDigit_of_mem_decimal n _ hmem

theorem decimal_injective {n m : Nat} (h : decimal n = decimal m) : n = m := by
  rw [← ofDecimal_decimal n, h, ofDecimal_decimal]

end Bytes

namespace Token

/-- Kind, lexeme, literal and line of a token. -/
def tabled (t : Token) : (Kind × Bytes × Option Literal) × UInt32 := (t.content, t.line)

/-! ## Cells that end in no blank -/

theorem getLast?_name (kind : Kind) : kind.name.getLast? ≠ some ' '.toUInt8 :=
  fun h => kind.blank_notMem_name (List.mem_of_getLast? h)

theorem getLast?_quoted (lexeme : Bytes) :
    (ascii "'" ++ lexeme ++ ascii "'").getLast? ≠ some ' '.toUInt8 := by
  rw [show ascii "'" = ['\''.toUInt8] from rfl, List.getLast?_concat]
  decide

/-! ## Rows -/

/-- A row of a table tells the token that it is about and where it ends. Of the widths only those
of the four columns count that are filled up. -/
theorem selfDelimiting_cells {widths : List Nat} (hnarrow : Table.Narrow widths) :
    SelfDelimiting
      (fun r : Token × Nat => r.1.kind.Spells r.1.lexeme r.1.literal ∧
        Table.Fits widths ((r.1.cells r.2).take 4))
      (fun r => Table.line widths (r.1.cells r.2)) (fun r => r.1.tabled) := by
  rintro ⟨t, i⟩ ⟨u, j⟩ ⟨ht, hfits⟩ ⟨hu, hfits'⟩ rest rest' heq
  match widths, hfits, hfits' with
  | w₀ :: w₁ :: w₂ :: w₃ :: _, ⟨h₀, h₁, h₂, h₃, _⟩, ⟨h₀', h₁', h₂', h₃', _⟩ =>
    have hw₁ := hnarrow w₁ (by simp)
    have hw₂ := hnarrow w₂ (by simp)
    -- the index does not count, and the literal is told by kind and lexeme
    dsimp only [cells] at heq
    obtain ⟨-, heq⟩ := Table.line_cons_inj (hnarrow w₀ (by simp)) h₀ h₀' heq
    obtain ⟨hname, heq⟩ := Table.line_cons_inj hw₁ h₁ h₁' heq
    obtain ⟨hlexeme, heq⟩ := Table.line_cons_inj hw₂ h₂ h₂' heq
    obtain ⟨-, heq⟩ := Table.line_cons_inj (hnarrow w₃ (by simp)) h₃ h₃' heq
    have hkind : t.kind = u.kind :=
      Kind.name_injective (Table.pad_injective hw₁ (getLast?_name _) (getLast?_name _) hname)
    have hlexeme : t.lexeme = u.lexeme := by
      have hquoted := Table.pad_injective hw₂ (getLast?_quoted _) (getLast?_quoted _) hlexeme
      rwa [List.append_cancel_right_eq, List.append_cancel_left_eq] at hquoted
    have hliteral : t.literal = u.literal := by
      rw [← hkind, ← hlexeme] at hu
      exact ht.literal_unique hu
    rw [Table.line, Table.line, List.append_assoc, List.append_assoc] at heq
    obtain ⟨hline, hrest⟩ := append_cons_inj (Bytes.newline_notMem_decimal _)
      (Bytes.newline_notMem_decimal _) heq
    have hline : t.line = u.line := UInt32.toNat_inj.mp (Bytes.decimal_injective hline)
    have htabled : t.tabled = u.tabled := by
      rw [tabled, tabled, content, content, hkind, hlexeme, hliteral, hline]
    exact ⟨htabled, hrest⟩

/-! ## Tables -/

/-- A table is laid out if its cells are short enough for a signed 32-bit word. -/
theorem laid_table {tokens : List Token}
    (h : ∀ row ∈ (table tokens).rows, ∀ cell ∈ row, cell.length < 2 ^ 31 - 3) :
    (table tokens).Laid := by
  refine Table.laid_ofRows (by decide) fun row hrow cell hcell => ?_
  have := h row (by rwa [table, Table.rows_ofRows]) cell hcell
  have hgap : Table.gap = 2 := rfl
  omega

/-- The rows of a table, each with the token that it is about and the index of that token. -/
theorem rows_table (tokens : List Token) :
    (table tokens).rows = tokens.zipIdx.map fun r => r.1.cells r.2 := by
  rw [table, Table.rows_ofRows, List.mapIdx_eq_zipIdx_map]

/-- The text of the rows, told by the widths of the columns that are filled up. -/
theorem flatMap_line_rows (tokens : List Token) (widths : List Nat) :
    (table tokens).rows.flatMap (Table.line widths) =
      tokens.zipIdx.flatMap fun r => Table.line (widths.take 4) (r.1.cells r.2) := by
  rw [rows_table, List.flatMap_map]
  exact congrArg (List.flatMap · tokens.zipIdx)
    (funext fun r => (Table.line_take widths (r.1.cells r.2)).symm)

theorem spells_and_fits {tokens : List Token}
    (hspells : ∀ t ∈ tokens, t.kind.Spells t.lexeme t.literal) (hlaid : (table tokens).Laid) :
    ∀ r ∈ tokens.zipIdx, r.1.kind.Spells r.1.lexeme r.1.literal ∧
      Table.Fits ((table tokens).widths.take 4) ((r.1.cells r.2).take 4) := by
  rintro ⟨t, i⟩ ht
  refine ⟨hspells t (List.fst_mem_of_mem_zipIdx ht), (hlaid.rows _ ?_).take 4⟩
  rw [rows_table]
  exact List.mem_map_of_mem ht

/-- Tables of spelled tokens with the same text are about the same tokens. -/
theorem map_tabled_eq {tokens others : List Token} (h : tableText tokens = tableText others)
    (hspells : ∀ t ∈ tokens, t.kind.Spells t.lexeme t.literal)
    (hspells' : ∀ t ∈ others, t.kind.Spells t.lexeme t.literal)
    (hlaid : (table tokens).Laid) (hlaid' : (table others).Laid) :
    tokens.map tabled = others.map tabled := by
  have hheader : ∀ l, (table l).header =
      [ascii "#", ascii "Kind", ascii "Lexeme", ascii "Literal", ascii "Line"] :=
    fun l => Table.header_ofRows _ _
  have hmarked : Table.Marked (table tokens).header := by
    rw [hheader, Table.Marked]
    decide
  obtain ⟨hwidths, hrows⟩ := Table.format_inj hlaid hlaid' (by rw [hheader, hheader])
    (by simp [hheader]) hmarked h
  have hcolumns : (table tokens).header.length - 1 = 4 := by
    rw [hheader]
    rfl
  rw [hcolumns] at hwidths
  rw [flatMap_line_rows, flatMap_line_rows, ← hwidths] at hrows
  have hmap := (selfDelimiting_cells (hlaid.narrow.take 4)).map_eq
    (fun _ => Table.line_ne_nil _ _) (spells_and_fits hspells hlaid)
    (hwidths ▸ spells_and_fits hspells' hlaid') hrows
  have hfst : ∀ l : List Token, l.zipIdx.map (fun r => r.1.tabled) = l.map tabled :=
    fun l => List.map_map.symm.trans (congrArg (List.map tabled) (List.zipIdx_map_fst 0 l))
  rw [← hfst, hmap, hfst]

/-- A table tells nothing but contents and lines. -/
theorem tableText_congr {tokens others : List Token} (h : tokens.map tabled = others.map tabled) :
    tableText tokens = tableText others := by
  have hcells : ∀ l : List Token, l.mapIdx (fun i t => t.cells i) =
      (l.map tabled).mapIdx fun i d =>
        cells { kind := d.1.1, lexeme := d.1.2.1, literal := d.1.2.2, line := d.2 } i := by
    intro l
    rw [List.mapIdx_eq_zipIdx_map, List.mapIdx_eq_zipIdx_map, List.zipIdx_map, List.map_map]
    rfl
  rw [tableText, tableText, table, table, hcells, h, ← hcells]

end Token

/-- Scans whose cells are short enough for a signed 32-bit word have the same table if and only if
they have the same number of tokens with the same kinds, lexemes, literals and lines. -/
theorem Source.scan_table_eq_iff (s t : Source) (sink sink' : Sink) :
    let tokens := (s.scan sink).1
    let others := (t.scan sink').1
    (∀ row ∈ (Token.table tokens).rows, ∀ cell ∈ row, cell.length < 2 ^ 31 - 3) →
    (∀ row ∈ (Token.table others).rows, ∀ cell ∈ row, cell.length < 2 ^ 31 - 3) →
      (Token.Cursor.format { tokens } = Token.Cursor.format { tokens := others } ↔
        tokens.map Token.tabled = others.map Token.tabled) := by
  intro tokens others hcells hcells'
  constructor
  · intro h
    exact Token.map_tabled_eq h (fun _ => spells_of_mem_scan) (fun _ => spells_of_mem_scan)
      (Token.laid_table hcells) (Token.laid_table hcells')
  · exact Token.tableText_congr

/-- A string that looks like the end of its cell is told from one that ends there. -/
theorem Source.scan_table_eq_iff_quoted :
    let tokens := (Source.scan ⟨ascii "\"a' \"", [], 0⟩ ⟨[], []⟩).1
    let others := (Source.scan ⟨ascii "\"a'  \"", [], 1⟩ ⟨[], []⟩).1
    (∀ row ∈ (Token.table tokens).rows, ∀ cell ∈ row, cell.length < 2 ^ 31 - 3) ∧
    (∀ row ∈ (Token.table others).rows, ∀ cell ∈ row, cell.length < 2 ^ 31 - 3) ∧
      (Token.Cursor.format { tokens } = Token.Cursor.format { tokens := others } ↔
        tokens.map Token.tabled = others.map Token.tabled) := by
  intro tokens others
  have hcells : ∀ row ∈ (Token.table tokens).rows, ∀ cell ∈ row, cell.length < 2 ^ 31 - 3 := by
    decide +kernel
  have hcells' : ∀ row ∈ (Token.table others).rows, ∀ cell ∈ row, cell.length < 2 ^ 31 - 3 := by
    decide +kernel
  exact ⟨hcells, hcells', scan_table_eq_iff _ _ _ _ hcells hcells'⟩

end LoxLex
