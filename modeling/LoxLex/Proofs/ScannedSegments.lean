import LoxLex.Proofs.Chain
import LoxLex.Scan
import LoxLex.Segment.Placed

/-!
# The segments that a scanner reads

A scanner reads byte by byte, and its switch knows the symbols by their bytes. What it finds is
told here by the segments of its source, which are cut off as whole pieces.

## Main definitions

* `Source.Cursor.rest` — what a cursor has still to read.
* `Scanner.found` — what a scanner makes of a segment.

## Main statements

* `Scanner.scanToken_eq`: a scanner reads the segment that its rest begins with.
* `Scanner.scan_eq`: a scanner finds what its source has, wherever its cursor stands.
* `Source.tokens_eq`, `Source.scan_eq`: the tokens and the faults of a source are its segments.
-/

namespace LoxLex

namespace Source.Cursor

variable {c : Cursor} {b : Byte} {text tail : Bytes}

/-- What is left to read. -/
def rest (c : Cursor) : Bytes := c.source.text.drop c.here.offset

/-- The cursor once it has read `text`. -/
def past (c : Cursor) (text : Bytes) : Cursor := { c with here := c.here.after text }

@[simp] theorem past_nil (c : Cursor) : c.past [] = c := rfl

@[simp] theorem past_past (c : Cursor) (s t : Bytes) : (c.past s).past t = c.past (s ++ t) := by
  simp [past]

theorem rest_past (h : c.rest = text ++ tail) : (c.past text).rest = tail := by
  rw [rest] at h
  rw [rest, past, Position.offset_after, ← List.drop_drop, h, List.drop_left]

theorem byte?_eq (c : Cursor) : c.byte? = c.rest.head? := by
  rw [byte?, rest, List.head?_drop]

theorem isAtEnd_iff : c.isAtEnd ↔ c.rest = [] := by
  rw [isAtEnd, byte?_eq, Option.isNone_iff_eq_none, List.head?_eq_none_iff]

theorem peek_eq (c : Cursor) : c.peek = c.rest.head?.getD Byte.nul := by
  rw [peek, byte?_eq]

theorem peekNext_eq (h : c.rest = b :: tail) : c.peekNext = tail.head?.getD Byte.nul := by
  have htail : tail = c.source.text.drop (c.here.offset + 1) := by
    rw [← List.drop_drop, show c.source.text.drop c.here.offset = b :: tail from h]
    rfl
  rw [peekNext, htail, List.head?_drop]

theorem advance_eq (h : c.rest = b :: tail) : c.advance = (b, c.past [b]) := by
  simp only [advance, byte?_eq, h]
  rfl

theorem accept_of_head (h : c.rest = b :: tail) : c.accept b = (true, c.past [b]) := by
  rw [accept, byte?_eq, h, List.head?_cons, if_pos rfl, advance_eq h]

theorem accept_of_ne (h : c.rest.head? ≠ some b) : c.accept b = (false, c) := by
  rw [accept, byte?_eq, if_neg h]

theorem readWhile_eq (p : Byte → Bool) (c : Cursor) :
    c.readWhile p = c.past (c.rest.takeWhile p) := by
  fun_induction readWhile p c with
  | case1 c hend => rw [isAtEnd_iff.mp hend, List.takeWhile_nil, past_nil]
  | case2 c hend hp ih =>
    obtain ⟨b, tail, h⟩ := List.exists_cons_of_ne_nil (mt isAtEnd_iff.mpr hend)
    have hb : p b := by simpa [peek_eq, h] using hp
    rw [ih, advance_eq h, rest_past h, h, List.takeWhile_cons_of_pos hb, past_past,
      List.singleton_append]
  | case3 c hend hp =>
    obtain ⟨b, tail, h⟩ := List.exists_cons_of_ne_nil (mt isAtEnd_iff.mpr hend)
    have hb : ¬ p b := by simpa [peek_eq, h] using hp
    rw [h, List.takeWhile_cons_of_neg hb, past_nil]

theorem lexeme_past (hmark : c.mark = c.here) (h : text <+: c.rest) :
    (c.past text).lexeme = text := by
  obtain ⟨tail, h⟩ := h
  rw [rest] at h
  simp [lexeme, past, hmark, ← h]

end Source.Cursor

namespace Scanner

open Segment

variable {s : Scanner} {b : Byte} {text read tail : Bytes} {seg : Segment}

/-! ## What is found -/

/-- Whether the scanner is about to read a segment of the text. -/
structure Ready (s : Scanner) (text : Bytes) : Prop where
  mark : s.cursor.mark = s.cursor.here
  rest : s.cursor.rest = text

/-- The scanner once it has read `text`. -/
def past (s : Scanner) (text : Bytes) : Scanner := { s with cursor := s.cursor.past text }

/-- The segment where the scanner stands. -/
def placed (s : Scanner) (seg : Segment) : Placed :=
  ⟨seg, ⟨s.cursor.here, s.cursor.here.after seg.text, s.cursor.source.id⟩⟩

/-- What a scanner makes of a segment: a token, a report or nothing. -/
def found (s : Scanner) (seg : Segment) : Option Token × Scanner :=
  ((s.placed seg).token?,
    { s.past seg.text with sink := s.sink.addFaults (s.placed seg).fault?.toList })

@[simp] theorem past_past (s : Scanner) (first second : Bytes) :
    (s.past first).past second = s.past (first ++ second) := by
  simp [past]

@[simp] theorem past_nil (s : Scanner) : s.past [] = s := rfl

theorem rest_past (h : s.cursor.rest = read ++ tail) : (s.past read).cursor.rest = tail :=
  Source.Cursor.rest_past h

theorem Ready.lexeme_past (h : s.Ready text) (hread : read <+: text) :
    (s.past read).cursor.lexeme = read :=
  Source.Cursor.lexeme_past h.mark (h.rest ▸ hread)

theorem Ready.span_past (h : s.Ready text) (read : Bytes) : (s.past read).cursor.span =
    ⟨s.cursor.here, s.cursor.here.after read, s.cursor.source.id⟩ := by
  simp [Source.Cursor.span, past, Source.Cursor.past, h.mark]

theorem report_eq (s : Scanner) (f : Fault) :
    s.report f = { s with sink := s.sink.addFaults [f] } := rfl

theorem found_of_kind {kind : Kind} (h : s.Ready text) (hread : seg.text <+: text)
    (hkind : seg.kind? = some kind) :
    s.found seg = (some ((s.past seg.text).token kind seg.literal?), s.past seg.text) := by
  have hfault : (s.placed seg).fault? = none := by
    unfold Placed.fault?
    split <;> simp_all [Segment.kind?, placed]
  rw [found, hfault, Placed.token?]
  simp only [placed, hkind, token, h.lexeme_past hread, h.span_past]
  simp [past, Source.Cursor.past]

theorem found_of_fault {f : Fault} (h : (s.placed seg).fault? = some f) :
    s.found seg = (none, (s.past seg.text).report f) := by
  have htoken : (s.placed seg).token? = none := by
    revert h
    unfold Placed.fault?
    split <;> simp_all [Placed.token?, Segment.kind?]
  rw [found, h, htoken, report_eq]
  rfl

theorem found_of_silent (hkind : seg.kind? = none) (hfault : (s.placed seg).fault? = none) :
    s.found seg = (none, s.past seg.text) := by
  rw [found, hfault, Placed.token?]
  simp [placed, past, hkind]

/-! ## What each method reads -/

theorem advance_eq (h : s.cursor.rest = b :: tail) : s.advance = s.past [b] := by
  rw [advance, Source.Cursor.advance_eq h]
  rfl

theorem readWhile_eq (h : s.cursor.rest = text) (p : Byte → Bool) :
    s.readWhile p = s.past (text.takeWhile p) := by
  rw [readWhile, Source.Cursor.readWhile_eq, h]
  rfl

theorem accept_of_head (h : s.cursor.rest = b :: tail) : s.accept b = (true, s.past [b]) := by
  rw [accept, Source.Cursor.accept_of_head h]
  rfl

theorem accept_of_ne (h : s.cursor.rest = text) (hne : text.head? ≠ some b) :
    s.accept b = (false, s) := by
  rw [accept, Source.Cursor.accept_of_ne (h ▸ hne)]

theorem rest_past_takeWhile (h : s.cursor.rest = text) (p : Byte → Bool) :
    (s.past (text.takeWhile p)).cursor.rest = text.dropWhile p :=
  rest_past (by rw [h, List.takeWhile_append_dropWhile])

theorem skipComment_eq (h : s.cursor.rest = text) : s.skipComment = s.past (commentLine text) := by
  have hrest := rest_past_takeWhile h (· ≠ Byte.newline)
  rw [skipComment, readWhile_eq h, commentLine, ← past_past]
  cases hbehind : text.dropWhile (· ≠ Byte.newline) with
  | nil =>
    rw [hbehind] at hrest
    rw [accept_of_ne hrest (by simp), List.take_nil, past_nil]
  | cons b behind =>
    have hb : b ∈ (text.dropWhile (· ≠ Byte.newline)).head? := by rw [hbehind]; rfl
    obtain rfl : b = Byte.newline := by simpa using head?_dropWhile_stop b hb
    rw [hbehind] at hrest
    rw [accept_of_head hrest]
    rfl

/-- A symbol that does not take the next byte. -/
theorem found_of_symbol {symbol : Symbol} (h : s.Ready (b :: tail))
    (hread : symbol.spelling ++ text = b :: tail)
    (hstop : ∀ c ∈ text.head?, symbol.takes c = false) :
    s.found (first b tail) =
      (some ((s.past symbol.spelling).token (.symbol symbol)), s.past symbol.spelling) := by
  rw [first_of_symbol hstop hread, found_of_kind h ⟨text, hread⟩ rfl]
  rfl

theorem beq_head?_eq_false (h : tail.head? ≠ some b) : ∀ c ∈ tail.head?, (c == b) = false := by
  intro c hc
  rw [beq_eq_false_iff_ne]
  rintro rfl
  exact h hc

theorem scanSymbol_eq {symbol : Symbol} (h : s.Ready (b :: tail)) (hb : symbol.spelling = [b])
    (hstop : ∀ c, symbol.takes c = false) :
    (s.past [b]).scanSymbol symbol = s.found (first b tail) := by
  rw [found_of_symbol h (by rw [hb]; rfl) fun c _ => hstop c, hb]
  rfl

/-- The longer symbol takes the equals sign that makes it of the shorter one, and no other. -/
theorem scanLonger_eq {longer symbol : Symbol} (h : s.Ready (b :: tail))
    (hb : symbol.spelling = [b]) (hlonger : longer.spelling = [b, '='.toUInt8])
    (htakes : ∀ c, symbol.takes c = (c == '='.toUInt8)) (hstop : ∀ c, longer.takes c = false) :
    (s.past [b]).scanLonger longer symbol = s.found (first b tail) := by
  have hrest : (s.past [b]).cursor.rest = tail := rest_past h.rest
  rw [scanLonger]
  by_cases hequal : tail.head? = some '='.toUInt8
  · obtain ⟨behind, rfl⟩ := List.head?_eq_some_iff.mp hequal
    have hread : longer.spelling ++ behind = b :: '='.toUInt8 :: behind := by rw [hlonger]; rfl
    rw [accept_of_head hrest, past_past, found_of_symbol h hread fun c _ => hstop c, hlonger]
    rfl
  · have hstop : ∀ c ∈ tail.head?, symbol.takes c = false := fun c hc =>
      (htakes c).trans (beq_head?_eq_false hequal c hc)
    rw [accept_of_ne hrest hequal, found_of_symbol h (by rw [hb]; rfl) hstop, hb]
    rfl

theorem scanSlash_eq (h : s.Ready (Byte.slash :: tail)) :
    (s.past [Byte.slash]).scanSlash = s.found (first Byte.slash tail) := by
  have hrest : (s.past [Byte.slash]).cursor.rest = tail := rest_past h.rest
  rw [scanSlash]
  by_cases hcomment : tail.head? = some Byte.slash
  · obtain ⟨behind, rfl⟩ := List.head?_eq_some_iff.mp hcomment
    have hbehind : (s.past [Byte.slash, Byte.slash]).cursor.rest = behind := rest_past h.rest
    rw [accept_of_head hrest, past_past]
    dsimp only [List.singleton_append]
    rw [if_pos rfl, skipComment_eq hbehind, first_slash_slash, found_of_silent rfl rfl, past_past]
    rfl
  · have hstop : ∀ c ∈ tail.head?, Symbol.slash.takes c = false := beq_head?_eq_false hcomment
    rw [accept_of_ne hrest hcomment, found_of_symbol h rfl hstop]
    rfl

theorem scanString_eq (h : s.Ready (Byte.quote :: tail)) :
    (s.past [Byte.quote]).scanString = s.found (first Byte.quote tail) := by
  have hrest : (s.past [Byte.quote]).cursor.rest = tail := rest_past h.rest
  have hpre := text_first_isPrefix Byte.quote tail
  rw [scanString, readWhile_eq hrest, past_past]
  by_cases hquote : Byte.quote ∈ tail
  · obtain ⟨body, behind, rfl, hbody⟩ := List.eq_append_cons_of_mem hquote
    have hbehind : (s.past (Byte.quote :: body)).cursor.rest = Byte.quote :: behind :=
      rest_past h.rest
    rw [first_of_string hbody] at hpre ⊢
    rw [found_of_kind h hpre rfl, takeWhile_ne_quote hbody, List.singleton_append,
      if_neg (by simp [Source.Cursor.isAtEnd_iff, hbehind]), advance_eq hbehind, past_past]
    dsimp only
    rw [h.lexeme_past hpre]
    rfl
  · have hbody : ∀ c ∈ tail, decide (c ≠ Byte.quote) = true := by grind
    have hend : (s.past (Byte.quote :: tail)).cursor.rest = [] :=
      rest_past (by rw [h.rest, List.append_nil])
    rw [first_of_unclosed hquote, found_of_fault rfl, List.takeWhile_eq_self_iff.mpr hbody,
      List.singleton_append, if_pos (Source.Cursor.isAtEnd_iff.mpr hend), h.span_past]
    rfl

/-- Behind the digits of a number, a dot is read only if a digit follows it. -/
theorem readFraction_eq (h : s.cursor.rest = text) :
    (if s.cursor.peek = Byte.dot ∧ s.cursor.peekNext.isDigit then s.advance.readWhile Byte.isDigit
      else s) = s.past (fraction text) := by
  cases text with
  | nil =>
    rw [if_neg]
    · rfl
    · rw [Source.Cursor.peek_eq, h]
      exact fun hdot => absurd hdot.1 (by decide)
  | cons b tail =>
    have hpeek : s.cursor.peek = b := by rw [Source.Cursor.peek_eq, h]; rfl
    have hdigit : s.cursor.peekNext.isDigit = tail.head?.any Byte.isDigit := by
      rw [Source.Cursor.peekNext_eq h]
      cases tail <;> rfl
    rw [hpeek, hdigit, fraction]
    split_ifs
    · rw [advance_eq h, readWhile_eq (rest_past h), past_past]
      rfl
    · rfl

theorem scanNumber_eq (h : s.Ready (b :: tail)) (hb : b.isDigit) :
    (s.past [b]).scanNumber = s.found (first b tail) := by
  have hrest : (s.past [b]).cursor.rest = tail := rest_past h.rest
  have hnumeral : [b] ++ (tail.takeWhile Byte.isDigit ++ fraction (tail.dropWhile Byte.isDigit)) =
      numeral (b :: tail) := by
    simp [numeral, hb]
  rw [scanNumber, readWhile_eq hrest, readFraction_eq (rest_past_takeWhile hrest Byte.isDigit),
    past_past, past_past, hnumeral, first_of_isDigit hb, found_of_kind h (numeral_isPrefix _) rfl]
  dsimp only
  rw [h.lexeme_past (numeral_isPrefix _)]
  rfl

theorem scanWord_eq (h : s.Ready (b :: tail)) (hb : b.isWordStart) :
    (s.past [b]).scanWord = s.found (first b tail) := by
  have hrest : (s.past [b]).cursor.rest = tail := rest_past h.rest
  have hpre : b :: tail.takeWhile Byte.isWordPart <+: b :: tail :=
    List.cons_prefix_cons.mpr ⟨rfl, List.takeWhile_prefix _⟩
  rw [scanWord, readWhile_eq hrest, past_past, first_of_isWordStart hb, found_of_kind h hpre rfl]
  dsimp only [List.singleton_append]
  rw [h.lexeme_past hpre]
  rfl

theorem reportStray_eq (h : s.Ready (b :: tail)) (hb : b.isForeign) :
    (none, (s.past [b]).reportStray b) = s.found (first b tail) := by
  have hrest : (s.past [b]).cursor.rest = tail := rest_past h.rest
  have hread : (if b.isLead then (s.past [b]).readWhile Byte.isContinuation else s.past [b]) =
      s.past (stray b tail).text := by
    rw [readWhile_eq hrest, stray]
    split_ifs
    · rw [past_past, List.singleton_append]
    · rfl
  rw [reportStray, hread, first_of_isForeign hb, found_of_fault rfl,
    h.lexeme_past (text_stray_isPrefix b tail), h.span_past]
  rfl

/-- The characters with which something begins that is neither a word nor a number. -/
def openings : List Char :=
  ['(', ')', '\x7b', '\x7d', ',', '.', '-', '+', ';', '*', '!', '=', '<', '>', '/',
    ' ', '\t', '\r', '\n', '"']

/-- What the switch leaves over begins no regular segment. -/
theorem isForeign_of_notMem (h : Char.ofUInt8 b ∉ openings) (hdigit : ¬ b.isDigit)
    (hword : ¬ b.isWordStart) : b.isForeign := by
  have hopens : Symbol.opens b = false := by
    by_contra hopens
    obtain ⟨symbol, hsymbol, hb⟩ := List.any_eq_true.mp (Bool.not_eq_false _ ▸ hopens)
    have heads : ∀ t ∈ Symbol.all, ∀ c ∈ t.spelling.head?, Char.ofUInt8 c ∈ openings := by
      decide +kernel
    exact h (heads symbol hsymbol b (of_decide_eq_true hb))
  have hblank : ¬ b.isBlank := by
    rw [Byte.isBlank, Bool.or_eq_true, Bool.or_eq_true, Bool.or_eq_true, beq_iff_eq, beq_iff_eq,
      beq_iff_eq, beq_iff_eq]
    rintro (((rfl | rfl) | rfl) | rfl) <;> exact h (by decide)
  have hquote : b ≠ Byte.quote := by
    rintro rfl
    exact h (by decide)
  simp [Byte.isForeign, hdigit, hword, hopens, hblank, hquote]

/-- A scanner reads the segment that its rest begins with. -/
theorem scanToken_eq (h : s.Ready (b :: tail)) : s.scanToken = s.found (first b tail) := by
  have hb : s.cursor.advance.1 = b := by rw [Source.Cursor.advance_eq h.rest]
  unfold scanToken
  simp only [hb, advance_eq h.rest]
  split
  case h_11 | h_12 | h_13 | h_14 =>
    obtain rfl := Byte.eq_toUInt8_of_ofUInt8 ‹_›
    exact scanLonger_eq h rfl rfl (fun _ => rfl) fun _ => rfl
  case h_15 =>
    obtain rfl := Byte.eq_toUInt8_of_ofUInt8 ‹_›
    exact scanSlash_eq h
  case h_16 | h_17 | h_18 | h_19 =>
    obtain rfl := Byte.eq_toUInt8_of_ofUInt8 ‹_›
    rw [first_of_isBlank rfl, found_of_silent rfl rfl]
  case h_20 =>
    obtain rfl := Byte.eq_toUInt8_of_ofUInt8 ‹_›
    exact scanString_eq h
  case h_21 =>
    split_ifs with hdigit hword
    · exact scanNumber_eq h hdigit
    · exact scanWord_eq h hword
    · have hnone : Char.ofUInt8 b ∉ openings := by
        simp only [openings, List.mem_cons, List.not_mem_nil, or_false, not_or]
        and_intros <;> assumption
      exact reportStray_eq h (isForeign_of_notMem hnone hdigit hword)
  all_goals
    obtain rfl := Byte.eq_toUInt8_of_ofUInt8 ‹_›
    exact scanSymbol_eq h rfl fun _ => rfl

/-! ## Whole scans -/

/-- The segments that are left to read, in their places. -/
def ahead (s : Scanner) : List Placed :=
  place s.cursor.source.id s.cursor.here s.cursor.rest.segments

/-- The scanner once it has read and reported all of them. -/
def done (s : Scanner) : Scanner :=
  { (s.past s.cursor.rest).markHere with
    sink := s.sink.addFaults (s.ahead.filterMap Placed.fault?) }

theorem ahead_eq_nil (h : s.cursor.rest = []) : s.ahead = [] := by
  rw [ahead, h, Bytes.segments_nil, place]

theorem done_eq_markHere (h : s.cursor.rest = []) : s.done = s.markHere := by
  rw [done, ahead_eq_nil h, h, List.filterMap_nil, Sink.addFaults_nil, past_nil]
  rfl

theorem Ready.rest_found (h : s.Ready (b :: tail)) : (s.found (first b tail)).2.cursor.rest =
    (b :: tail).drop (first b tail).text.length :=
  Source.Cursor.rest_past (h.rest.trans (text_first_append_drop b tail).symm)

theorem Ready.ahead_eq_cons (h : s.Ready (b :: tail)) :
    s.ahead = s.placed (first b tail) :: (s.found (first b tail)).2.ahead := by
  rw [ahead, h.rest, Bytes.segments_cons, place, ahead, h.rest_found]
  rfl

theorem Ready.done_found (h : s.Ready (b :: tail)) : (s.found (first b tail)).2.done = s.done := by
  have hcursor : (s.found (first b tail)).2.cursor.past
      ((b :: tail).drop (first b tail).text.length) = s.cursor.past (b :: tail) := by
    have hread := s.cursor.past_past (first b tail).text
      ((b :: tail).drop (first b tail).text.length)
    rwa [text_first_append_drop] at hread
  have hfaults : s.ahead.filterMap Placed.fault? = (s.placed (first b tail)).fault?.toList ++
      (s.found (first b tail)).2.ahead.filterMap Placed.fault? := by
    rw [h.ahead_eq_cons, List.filterMap_cons]
    cases (s.placed (first b tail)).fault? <;> rfl
  rw [done, done, h.rest, h.rest_found, hfaults, ← Sink.addFaults_addFaults]
  simp only [past, hcursor]
  rfl

/-- Whatever is ahead is found. Each step takes the first of the segments ahead, and the scanner
stays on its way to the same end. -/
theorem scanRest_eq (s : Scanner) :
    s.scanRest.1 = s.ahead.filterMap Placed.token? ∧ s.scanRest.2.markHere = s.done := by
  fun_induction scanRest s with
  | case1 s hend =>
    have hrest := Source.Cursor.isAtEnd_iff.mp hend
    exact ⟨by rw [ahead_eq_nil hrest, List.filterMap_nil], (done_eq_markHere hrest).symm⟩
  | case2 s hend found rest ih =>
    have hne := mt Source.Cursor.isAtEnd_iff.mpr hend
    obtain ⟨b, tail, hrest⟩ := List.exists_cons_of_ne_nil hne
    have hready : s.markHere.Ready (b :: tail) := ⟨rfl, hrest⟩
    have hfound : found = s.markHere.found (first b tail) := scanToken_eq hready
    obtain ⟨htokens, hlast⟩ := ih
    -- the mark does not count for what is ahead
    constructor
    · change found.1.toList ++ rest.1 = s.markHere.ahead.filterMap Placed.token?
      rw [htokens, hready.ahead_eq_cons, hfound, List.filterMap_cons]
      cases htoken : (s.markHere.placed (first b tail)).token? <;> simp [Scanner.found, htoken]
    · change rest.2.markHere = s.markHere.done
      rw [hlast, hfound, hready.done_found]

theorem done_reset (s : Scanner) : done { s with cursor := s.cursor.reset } =
    ⟨⟨s.cursor.source, s.cursor.source.stop, s.cursor.source.stop⟩,
      s.sink.addFaults s.cursor.source.faults⟩ := rfl

theorem token_eof (hmark : s.cursor.mark = s.cursor.here) : s.token .eof =
    { line := s.cursor.here.line
      span := ⟨s.cursor.here, s.cursor.here, s.cursor.source.id⟩ } := by
  simp [token, Source.Cursor.lexeme, Source.Cursor.span, hmark]

theorem scan_eq_placed (s : Scanner) :
    s.scan = (s.cursor.source.placed.filterMap Placed.token? ++ [s.cursor.source.eof],
      ⟨⟨s.cursor.source, s.cursor.source.stop, s.cursor.source.stop⟩,
        s.sink.addFaults s.cursor.source.faults⟩) := by
  obtain ⟨htokens, hlast⟩ := scanRest_eq { s with cursor := s.cursor.reset }
  rw [scan]
  dsimp only
  rw [htokens, hlast, done_reset, token_eof rfl]
  rfl

end Scanner

/-- The tokens of a source are those of its segments that are tokens, and the end of the file. -/
theorem Source.tokens_eq (s : Source) :
    s.tokens = s.placed.filterMap Placed.token? ++ [s.eof] := by
  rw [tokens, scan, Scanner.scan_eq_placed]

/-- A scanner finds what its source has, wherever its cursor stands. -/
theorem Scanner.scan_eq (s : Scanner) : s.scan = (s.cursor.source.tokens,
    ⟨⟨s.cursor.source, s.cursor.source.stop, s.cursor.source.stop⟩,
      s.sink.addFaults s.cursor.source.faults⟩) := by
  rw [scan_eq_placed, Source.tokens_eq]

/-- A scan finds the tokens of its source and reports the faults. -/
theorem Source.scan_eq (s : Source) (sink : Sink) :
    s.scan sink = (s.tokens, sink.addFaults s.faults) := by
  rw [scan, Scanner.scan_eq]

end LoxLex
