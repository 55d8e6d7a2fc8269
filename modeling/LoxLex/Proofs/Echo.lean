import LoxLex.Proofs.LineEndings
import LoxLex.Proofs.LineText
import LoxLex.Proofs.Places

/-!
# Echoed spans

What a span covers is shown from the lines of the source, which are found by their numbers and
come without carriage returns and newlines. Put together again, the lines of a token are its
lexeme, and those of an unexpected character are the character.

## Main definitions

* `Source.echo` — what a span covers, line by line.

## Main statements

* `Source.echo_of_line_lt`: the first of several lines.
* `Source.echo_behind`: a stretch of the source is echoed without its carriage returns before
  newlines.
* `Source.scan_echoed`: so is what a scan has found.
-/

namespace LoxLex

namespace Bytes

variable {text line rest : Bytes}

/-- The carriage return before its newline is all that a line loses. -/
theorem dropReturns_line (hline : Byte.newline ∉ line) (rest : Bytes) :
    dropReturns (line ++ Byte.newline :: rest) =
      dropCarriageReturn line ++ Byte.newline :: dropReturns rest := by
  have hends : ¬ ((line ++ [Byte.newline]).getLast? = some Byte.carriageReturn ∧
      rest.head? = some Byte.newline) := by
    rw [List.getLast?_concat]
    exact fun hreturn => absurd hreturn.1 (by decide)
  rw [List.append_cons, dropReturns_append hends, dropReturns_append_newline hline,
    ← List.append_cons]

/-- Only the end of a text loses its carriage return. -/
theorem dropCarriageReturn_append (hrest : rest ≠ []) (text : Bytes) :
    dropCarriageReturn (text ++ rest) = text ++ dropCarriageReturn rest := by
  have hlast : (text ++ rest).getLast? = rest.getLast? := by
    rw [List.getLast?_append, List.getLast?_eq_some_getLast hrest, Option.some_or]
  unfold dropCarriageReturn
  rw [hlast]
  split
  · exact List.dropLast_append_of_ne_nil hrest
  · rfl

theorem drop_dropCarriageReturn (text rest : Bytes) :
    (dropCarriageReturn (text ++ rest)).drop text.length = dropCarriageReturn rest := by
  by_cases hrest : rest = []
  · subst hrest
    unfold dropCarriageReturn
    split <;> simp
  · rw [dropCarriageReturn_append hrest, List.drop_left]

theorem take_dropCarriageReturn (h : text.getLast? ≠ some Byte.carriageReturn) (rest : Bytes) :
    (dropCarriageReturn (text ++ rest)).take text.length = text := by
  by_cases hrest : rest = []
  · rw [hrest, List.append_nil, dropCarriageReturn, if_neg h, List.take_length]
  · rw [dropCarriageReturn_append hrest, List.take_left]

end Bytes

namespace Source

/-- What a span covers of the line `n`: on its first line from its start on, and on its last line
up to its end. -/
def echoLine (s : Source) (span : Span) (n : Nat) : Bytes :=
  let line := s.lineText n.toUInt32
  let line := if n = span.stop.line.toNat then line.take (span.stop.column.toNat - 1) else line
  if n = span.start.line.toNat then line.drop (span.start.column.toNat - 1) else line

/-- What a span covers of the lines that it lies on, with a newline between two of them. -/
def echo (s : Source) (span : Span) : Bytes :=
  let first := span.start.line.toNat
  let lines := List.range' first (span.stop.line.toNat + 1 - first)
  [Byte.newline].intercalate (lines.map (s.echoLine span))

variable {s : Source} {span : Span} {file : UInt32} {before piece behind : Bytes}

theorem echo_of_line_eq (h : span.start.line = span.stop.line) : s.echo span =
    ((s.lineText span.start.line).drop (span.start.column.toNat - 1)).take
      (span.stop.column.toNat - 1 - (span.start.column.toNat - 1)) := by
  have hone : span.stop.line.toNat + 1 - span.stop.line.toNat = 1 := by omega
  rw [echo, h, hone, List.range'_one, List.map_singleton, List.intercalate_singleton, echoLine,
    if_pos rfl, if_pos (congrArg UInt32.toNat h.symm), List.drop_take, Nat.toUInt32,
    UInt32.ofNat_toNat]

/-- The first of several lines is echoed from the start of the span on, and the lines behind it as
from their beginning. -/
theorem echo_of_line_lt {next : Position} (hline : next.line.toNat = span.start.line.toNat + 1)
    (hcolumn : next.column = 1) (hstop : next.line.toNat ≤ span.stop.line.toNat) :
    s.echo span = (s.lineText span.start.line).drop (span.start.column.toNat - 1) ++
      Byte.newline :: s.echo ⟨next, span.stop, span.file⟩ := by
  have hcount : span.stop.line.toNat + 1 - span.start.line.toNat =
      span.stop.line.toNat + 1 - next.line.toNat + 1 := by omega
  have hrest : ∀ n ∈ List.range' next.line.toNat (span.stop.line.toNat + 1 - next.line.toNat),
      s.echoLine span n = s.echoLine ⟨next, span.stop, span.file⟩ n := by
    intro n hn
    have hfirst : n ≠ span.start.line.toNat := by
      have := List.mem_range'_1.mp hn
      omega
    simp [echoLine, hfirst, hcolumn]
  have hne : List.range' next.line.toNat (span.stop.line.toNat + 1 - next.line.toNat) ≠ [] := by
    rw [Ne, List.range'_eq_nil_iff]
    omega
  have hother : span.start.line.toNat ≠ span.stop.line.toNat := by omega
  have hshown : s.echoLine span span.start.line.toNat =
      (s.lineText span.start.line).drop (span.start.column.toNat - 1) := by
    rw [echoLine, if_neg hother, if_pos rfl, Nat.toUInt32, UInt32.ofNat_toNat]
  rw [echo, hcount, List.range'_succ, ← hline, List.map_cons, List.map_congr_left hrest, hshown,
    List.intercalate_cons_of_ne_nil (by simpa using hne), List.append_assoc]
  rfl

/-! ## Stretches of the source -/

/-- A stretch within a line is found at its columns, unless it ends in the carriage return of the
line. -/
theorem take_drop_lineText (hs : s.text.Countable) (htext : s.text = before ++ piece ++ behind)
    (hpiece : Byte.newline ∉ piece) (hlast : piece.getLast? ≠ some Byte.carriageReturn) :
    ((s.lineText (Position.behind before).line).drop
      ((Position.behind before).column.toNat - 1)).take piece.length = piece := by
  obtain ⟨more, rest, rfl, hmore, hrest⟩ := Bytes.exists_line_append behind
  rw [List.append_assoc, ← List.append_assoc piece] at htext
  have hline : Byte.newline ∉ piece ++ more := by grind
  rw [lineText_behind hs htext hline hrest, Position.toNat_column_behind (htext ▸ hs).of_append,
    Nat.add_sub_cancel_left, Bytes.drop_dropCarriageReturn, Bytes.take_dropCarriageReturn hlast]

theorem echo_behind_line (hs : s.text.Countable) (htext : s.text = before ++ piece ++ behind)
    (hpiece : Byte.newline ∉ piece) (hlast : piece.getLast? ≠ some Byte.carriageReturn) :
    s.echo ⟨.behind before, .behind (before ++ piece), file⟩ = piece := by
  have hwhole : Bytes.Countable (before ++ piece) := (htext ▸ hs).of_append
  have hcolumn := Position.toNat_column_behind_append hwhole hpiece
  have hfirst := Position.toNat_column_behind hwhole.of_append
  have hwidth : (Position.behind before).column.toNat + piece.length - 1 -
      ((Position.behind before).column.toNat - 1) = piece.length := by omega
  rw [echo_of_line_eq (Position.line_behind_append hpiece).symm, hcolumn, hwidth]
  exact take_drop_lineText hs htext hpiece hlast

/-- The first line of a stretch is echoed without the carriage return before its newline. -/
theorem echo_behind_newline {line more : Bytes} (hs : s.text.Countable)
    (htext : s.text = before ++ (line ++ Byte.newline :: more) ++ behind)
    (hline : Byte.newline ∉ line) :
    s.echo ⟨.behind before, .behind (before ++ (line ++ Byte.newline :: more)), file⟩ =
      line.dropCarriageReturn ++ Byte.newline ::
        s.echo ⟨.behind (before ++ (line ++ [Byte.newline])),
          .behind (before ++ (line ++ [Byte.newline]) ++ more), file⟩ := by
  let next := before ++ (line ++ [Byte.newline])
  have hsplit : before ++ (line ++ Byte.newline :: more) = next ++ more := by simp [next]
  have hwhole : Bytes.Countable (next ++ more) := hsplit ▸ (htext ▸ hs).of_append
  have hfirst : s.text = before ++ (line ++ Byte.newline :: (more ++ behind)) := by simp [htext]
  have hdown : (Position.behind next).line.toNat = (Position.behind before).line.toNat + 1 := by
    rw [Position.toNat_line_behind_append hwhole.of_append, Bytes.count_append_newline hline]
  have hleft : (Position.behind next).column = 1 := by
    have hends : next = before ++ line ++ [Byte.newline] := (List.append_assoc _ _ _).symm
    rw [hends, Position.behind_concat, Position.step, if_pos rfl]
  have hstop : (Position.behind next).line.toNat ≤ (Position.behind (next ++ more)).line.toNat :=
    Position.toNat_line_behind_append hwhole ▸ Nat.le_add_right _ _
  rw [hsplit, echo_of_line_lt hdown hleft hstop, lineText_behind hs hfirst hline (by simp),
    Position.toNat_column_behind hwhole.of_append.of_append, Nat.add_sub_cancel_left,
    Bytes.drop_dropCarriageReturn]

/-- A stretch of the source is echoed without its carriage returns before newlines, unless its
last byte is one of them. -/
theorem echo_behind (hs : s.text.Countable) (htext : s.text = before ++ piece ++ behind)
    (hlast : piece.getLast? ≠ some Byte.carriageReturn) :
    s.echo ⟨.behind before, .behind (before ++ piece), file⟩ = piece.dropReturns := by
  induction piece using Bytes.line_induction generalizing before with
  | nil => exact echo_behind_line hs htext List.not_mem_nil hlast
  | last line hline _ =>
    rw [Bytes.dropReturns_of_notMem hline]
    exact echo_behind_line hs htext hline hlast
  | cons line more hline ih =>
    -- what is left begins with a line, so that all of that line is echoed
    have hnext : s.text = before ++ (line ++ [Byte.newline]) ++ more ++ behind := by simp [htext]
    have hmore : more.getLast? ≠ some Byte.carriageReturn := by grind
    rw [echo_behind_newline hs htext hline, ih hnext hmore, Bytes.dropReturns_line hline]

end Source

/-! ## Scans -/

/-- Neither tokens nor stray characters end in a carriage return. -/
theorem Segment.Formed.getLast?_ne_return {s : Segment} (h : s.Formed)
    (hshape : s.shape.isToken ∨ s.shape = .stray) :
    s.text.getLast? ≠ some Byte.carriageReturn := by
  intro hlast
  by_cases hsolid : s.shape.isSolid
  · cases h.isBlank_eq_false hsolid _ (List.mem_of_getLast? hlast)
  · have hstring : s.shape = .string := by
      obtain ⟨shape, text⟩ := s
      cases shape with
      | string => rfl
      | _ => simp_all [Shape.isSolid, Shape.isToken]
    obtain ⟨body, -, htext⟩ := h.exists_body hstring
    rw [htext, List.getLast?_concat] at hlast
    cases hlast

namespace Source

variable {s : Source} {p : Placed}

theorem echo_of_mem_placed (hs : s.text.Countable) (hp : p ∈ s.placed)
    (hshape : p.segment.shape.isToken ∨ p.segment.shape = .stray) :
    s.echo p.span = p.segment.text.dropReturns := by
  obtain ⟨before, behind, htext, hspan⟩ := exists_of_mem_placed hp
  rw [← List.append_assoc] at htext
  rw [hspan]
  exact echo_behind hs htext ((formed_of_mem_placed hp).getLast?_ne_return hshape)

/-- On one line there is no newline, and so no carriage return before one. -/
theorem newline_notMem_of_line_eq (hs : s.text.Countable) (hp : p ∈ s.placed)
    (hline : p.span.start.line = p.span.stop.line) : Byte.newline ∉ p.segment.text := by
  obtain ⟨before, behind, htext, hspan⟩ := exists_of_mem_placed hp
  rw [← List.append_assoc] at htext
  have hcount := Position.toNat_line_behind_append (htext ▸ hs).of_append
  have heq : (Position.behind before).line =
      (Position.behind (before ++ p.segment.text)).line := by simpa [hspan] using hline
  apply List.count_eq_zero.mp
  rw [← heq] at hcount
  omega

/-- A stray character is found on its line, at its columns. -/
theorem lineText_of_stray (hs : s.text.Countable) (hp : p ∈ s.placed)
    (hstray : p.segment.shape = .stray) :
    p.span.start.line = p.span.stop.line ∧
      p.span.stop.column.toNat - p.span.start.column.toNat = p.segment.text.length ∧
      ((s.lineText p.span.start.line).drop (p.span.start.column.toNat - 1)).take
        p.segment.text.length = p.segment.text := by
  have hformed := formed_of_mem_placed hp
  have hnewline := hformed.newline_notMem (by rw [hstray]; rfl)
  obtain ⟨before, behind, htext, hspan⟩ := exists_of_mem_placed hp
  rw [← List.append_assoc] at htext
  have hline : (Position.behind before).line =
      (Position.behind (before ++ p.segment.text)).line :=
    (Position.line_behind_append hnewline).symm
  have hcolumn := Position.toNat_column_behind_append (htext ▸ hs).of_append hnewline
  have hfound := take_drop_lineText hs htext hnewline (hformed.getLast?_ne_return (.inr hstray))
  rw [hspan]
  exact ⟨hline, Nat.sub_eq_of_eq_add' hcolumn, hfound⟩

/-- Put together from the lines of a source that is short enough, the span of a token is its lexeme
without the carriage returns before newlines, and on one line it is the lexeme. An unexpected
character lies on one line and is named as it stands there. -/
theorem scan_echoed (s : Source) (sink : Sink) (hs : s.text.length < 2 ^ 32 - 1) :
    ∃ tokens reports, s.scan sink = (tokens, { sink with entries := sink.entries ++ reports }) ∧
      (∀ t ∈ tokens, t.kind ≠ .eof → s.echo t.span = t.lexeme.dropReturns ∧
        (t.span.start.line = t.span.stop.line → s.echo t.span = t.lexeme)) ∧
      ∀ d ∈ reports, d.code = some .unexpectedCharacter →
        d.span.start.line = d.span.stop.line ∧
        let width := d.span.stop.column.toNat - d.span.start.column.toNat
        let shown :=
          ((s.lineText d.span.start.line).drop (d.span.start.column.toNat - 1)).take width
        shown.length = width ∧ d.message = ascii "Unexpected character " ++ shown := by
  refine ⟨s.tokens, s.faults.map (Fault.diagnostic sink.origin), s.scan_eq sink, ?_, ?_⟩
  · intro t ht heof
    rcases exists_of_mem_tokens ht with rfl | ⟨p, hp, htoken⟩
    · exact absurd rfl heof
    · obtain ⟨-, hlexeme, -, hspan⟩ := Placed.token?_eq_some htoken
      have hshape : p.segment.shape.isToken := by
        by_contra hshape
        simp [Placed.token?_eq_none (by simpa using hshape)] at htoken
      have hecho := echo_of_mem_placed hs hp (.inl hshape)
      rw [hlexeme, hspan]
      refine ⟨hecho, fun hline => ?_⟩
      rw [hecho, Bytes.dropReturns_of_notMem (newline_notMem_of_line_eq hs hp hline)]
  · intro d hd hcode
    have hmem : d ∈ (s.faults.map (Fault.diagnostic sink.origin)).filter
        (·.code = some .unexpectedCharacter) := List.mem_filter.mpr ⟨hd, by simpa using hcode⟩
    rw [filter_unexpected] at hmem
    obtain ⟨p, hp, rfl⟩ := List.mem_map.mp hmem
    obtain ⟨hp, hshape⟩ := List.mem_filter.mp hp
    obtain ⟨hline, hwidth, hfound⟩ := lineText_of_stray hs hp (by simpa using hshape)
    refine ⟨hline, ?_⟩
    simp [Fault.diagnostic, Fault.span, Fault.message, hwidth, hfound]

/-- A string over two lines that end in carriage returns and newlines, and a character of two
bytes. -/
theorem scan_echoed_two_lines :
    let s : Source := ⟨ascii "print \"a\r\nb\";\r\n" ++ [0xC3, 0xA9], ascii "one.lox", 7⟩
    let sink : Sink := ⟨ascii "Scanner", []⟩
    s.text.length < 2 ^ 32 - 1 ∧
      ∃ tokens reports, s.scan sink = (tokens, { sink with entries := sink.entries ++ reports }) ∧
        (∀ t ∈ tokens, t.kind ≠ .eof → s.echo t.span = t.lexeme.dropReturns ∧
          (t.span.start.line = t.span.stop.line → s.echo t.span = t.lexeme)) ∧
        ∀ d ∈ reports, d.code = some .unexpectedCharacter →
          d.span.start.line = d.span.stop.line ∧
          let width := d.span.stop.column.toNat - d.span.start.column.toNat
          let shown :=
            ((s.lineText d.span.start.line).drop (d.span.start.column.toNat - 1)).take width
          shown.length = width ∧ d.message = ascii "Unexpected character " ++ shown := by
  intro s sink
  have hs : s.text.length < 2 ^ 32 - 1 := by decide
  exact ⟨hs, scan_echoed s sink hs⟩

example : (⟨ascii "print \"a\r\nb\";", ascii "one.lox", 7⟩ : Source).echo
    ⟨⟨1, 7, 6⟩, ⟨2, 3, 12⟩, 7⟩ = ascii "\"a\nb\"" := by
  rfl

end Source

end LoxLex
