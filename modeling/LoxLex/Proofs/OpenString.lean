import LoxLex.Proofs.LongestMatch
import LoxLex.Proofs.Places

/-!
# Strings without an end

A string that is still open where a text ends runs to that end, so a scan reports at most one, and
as its last diagnostic. One quote behind the text closes it, and nothing else changes. Where no
string is open the quote opens one, unless a comment at the end of the text takes it in.

## Main definitions

* `Bytes.EndsInComment` — the texts that end inside a comment.
* `Source.closed` — a source with a quote behind its text.
* `Source.ClosedBy` — what the quote changes where a string was open.

## Main statements

* `Segment.Chained.closed_or_open`: only the last segment of a chain can be a string without an end.
* `Source.scan_closed`: what a scan reports of strings without an end, and what a quote makes of it.
-/

namespace LoxLex

/-- Whether the last that is cut off a text by longest match is a comment that no newline ends. -/
def Bytes.EndsInComment (text : Bytes) : Prop :=
  ∃ before comment, Cut text (before ++ [⟨.comment, comment⟩]) ∧
    comment.getLast? ≠ some Byte.newline

namespace Source

/-- The source with a quote behind its text. -/
def closed (s : Source) : Source := { s with text := s.text ++ [Byte.quote] }

/-- The diagnostic `d` is the last of the scan `found` and reports, where the text ends, that a
string is open there. In the scan `closed` with a quote behind the text this string, from its quote
on, is a token that ends in the line reported, and all else is as it was. -/
structure ClosedBy (s : Source) (d : Diagnostic) (found closed : List Token × Sink) : Prop where
  last : found.2.entries.getLast? = some d
  span_eq : ∃ eof, found.1.getLast? = some eof ∧ eof.kind = .eof ∧ d.span = eof.span
  isEmpty : d.span.start = d.span.stop ∧ d.span.start.offset = s.text.length
  tokens_eq : ∃ before body, s.text = before ++ Byte.quote :: body ∧ Byte.quote ∉ body ∧
    let stop : Position := ⟨d.span.start.line, d.span.start.column + 1, d.span.start.offset + 1⟩
    closed.1 = found.1.filter (·.kind ≠ .eof) ++
      [⟨.string, Byte.quote :: body ++ [Byte.quote], some (.string body), d.span.start.line,
        ⟨.behind before, stop, s.id⟩⟩,
      ⟨.eof, [], none, d.span.start.line, ⟨stop, stop, s.id⟩⟩]
  reports_eq : closed.2.entries = found.2.entries.dropLast

end Source

/-! ## Segments -/

namespace Segment

variable {s : Segment} {l init : List Segment} {body : Bytes}

/-- A quote goes on with nothing but strings that are open and comments that no newline ends. -/
theorem stopsAt_quote (hclosed : s.shape ≠ .unclosed)
    (hcomment : s.shape = .comment → s.text.getLast? = some Byte.newline) :
    s.StopsAt [Byte.quote] := by
  obtain ⟨shape, text⟩ := s
  cases shape with
  | blank => trivial
  | string => trivial
  | comment => exact .inl (hcomment rfl)
  | unclosed => exact absurd rfl hclosed
  | symbol symbol =>
    rintro c ⟨⟩
    cases symbol <;> rfl
  | word =>
    rintro c ⟨⟩
    rfl
  | number => exact ⟨by rintro c ⟨⟩; rfl, .inr rfl⟩
  | stray =>
    rintro - c ⟨⟩
    rfl

/-- Only the last segment of a chain can be a string without an end. -/
theorem Chained.closed_or_open (h : Chained l) : (∀ s ∈ l, s.shape ≠ .unclosed) ∨
    ∃ init body, l = init ++ [⟨.unclosed, Byte.quote :: body⟩] ∧ Byte.quote ∉ body ∧
      ∀ s ∈ init, s.shape ≠ .unclosed := by
  induction h with
  | nil => exact .inl (by simp)
  | @cons s rest hs hstop hrest ih =>
    by_cases hopen : s.shape = .unclosed
    · rw [StopsAt, hopen] at hstop
      have hnil := segments_flatMap_text hrest
      rw [hstop, Bytes.segments_nil] at hnil
      cases hs with
      | spelled hspells =>
        rw [hopen] at hspells
        cases hspells
      | @unclosed body hbody => exact .inr ⟨[], body, by rw [← hnil]; rfl, hbody, by simp⟩
      | stray => cases hopen
    · rcases ih with ih | ⟨init, body, rfl, hbody, hinit⟩
      · exact .inl (List.forall_mem_cons.mpr ⟨hopen, ih⟩)
      · exact .inr ⟨s :: init, body, rfl, hbody, List.forall_mem_cons.mpr ⟨hopen, hinit⟩⟩

/-- A quote closes the string that is open at the end of a text. -/
theorem segments_concat_quote_of_open {text : Bytes}
    (h : text.segments = init ++ [⟨.unclosed, Byte.quote :: body⟩]) (hbody : Byte.quote ∉ body) :
    Bytes.segments (text ++ [Byte.quote]) =
      init ++ [⟨.string, Byte.quote :: body ++ [Byte.quote]⟩] :=
  segments_append_of_last h (.spelled (.string hbody)) rfl
    (by simp [show Byte.quote ≠ Byte.dot by decide])

/-- A comment at the end of a text takes in a quote behind it. -/
theorem segments_concat_quote_of_comment {text comment : Bytes}
    (h : text.segments = init ++ [⟨.comment, comment⟩])
    (hopen : comment.getLast? ≠ some Byte.newline) :
    Bytes.segments (text ++ [Byte.quote]) = init ++ [⟨.comment, comment ++ [Byte.quote]⟩] := by
  have hformed := (chained_segments text).formed_of_mem ⟨.comment, comment⟩ (by simp [h])
  obtain ⟨body, hnewline, rfl⟩ := hformed.exists_open_comment rfl hopen
  have hbody : Byte.newline ∉ body ++ [Byte.quote] := by
    simpa using ⟨hnewline, by decide⟩
  exact segments_append_of_last h (.spelled (.comment hbody)) rfl
    (by simp [show Byte.slash ≠ Byte.dot by decide])

/-- Otherwise a quote opens a string. -/
theorem segments_concat_quote_of_closed {text : Bytes}
    (hclosed : ∀ s ∈ text.segments, s.shape ≠ .unclosed) (hcomment : ¬ text.EndsInComment) :
    Bytes.segments (text ++ [Byte.quote]) = text.segments ++ [⟨.unclosed, [Byte.quote]⟩] := by
  have hquote : Formed ⟨.unclosed, [Byte.quote]⟩ := .unclosed (by simp)
  have hchain := (chained_segments text).concat hquote ?_ ?_
  · have := segments_flatMap_text hchain
    simpa using this
  · intro s hs
    refine stopsAt_quote (hclosed s (List.mem_of_getLast? hs)) fun hshape => ?_
    by_contra hopen
    obtain ⟨init, hinit⟩ := List.getLast?_eq_some_iff.mp hs
    exact hcomment ⟨init, s.text, cut_iff.mpr (hshape ▸ hinit.symm), hopen⟩
  · rintro c ⟨⟩
    rfl

end Segment

/-! ## Scans -/

namespace Source

variable {s : Source} {init : List Segment} {t : Segment} {origin body : Bytes}

theorem placed_of_concat (h : s.text.segments = init ++ [t]) : s.placed =
    Segment.place s.id .start init ++ [⟨t, ⟨.behind (init.flatMap (·.text)), s.stop, s.id⟩⟩] := by
  have htext : s.text = init.flatMap (·.text) ++ t.text := by
    rw [← s.text.flatMap_text_segments, h, List.flatMap_append, List.flatMap_singleton]
  rw [placed, h, Segment.place_append, Segment.place, Segment.place, stop, htext,
    Position.after_append, Position.start_after]

/-- The strings without an end that a scan reports are the segments that are such strings. -/
theorem count_unterminated (s : Source) (origin : Bytes) :
    (s.scan ⟨origin, []⟩).2.count (some .unterminatedString) =
      s.text.segments.countP (·.shape = .unclosed) := by
  rw [← s.map_segment_placed]
  simp only [scan_eq, Sink.count, Sink.addFaults, faults, List.nil_append, List.map_filterMap,
    List.countP_map, List.countP_filterMap]
  refine List.countP_congr fun p _ => ?_
  cases hshape : p.segment.shape <;>
    simp [Placed.fault?, hshape, Fault.diagnostic, Fault.code]

/-- What is reported of segments that are no open strings is something else. -/
theorem code_ne_unterminated {file : UInt32} {start : Position}
    (h : ∀ t ∈ init, t.shape ≠ .unclosed) :
    ∀ f ∈ (Segment.place file start init).filterMap Placed.fault?,
      f.code ≠ .unterminatedString := by
  intro f hf
  obtain ⟨p, hp, hf⟩ := List.mem_filterMap.mp hf
  have hmem := List.mem_map_of_mem (f := Placed.segment) hp
  rw [Segment.map_segment_place] at hmem
  rcases Placed.fault?_eq_some hf with ⟨-, hcode, -⟩ | ⟨hshape, -, -⟩
  · simp [hcode]
  · exact absurd hshape (h _ hmem)

theorem stop_closed (s : Source) :
    s.closed.stop = ⟨s.stop.line, s.stop.column + 1, s.stop.offset + 1⟩ := by
  rw [closed, stop, Position.after_append]
  rfl

theorem faults_of_open (h : s.text.segments = init ++ [⟨.unclosed, Byte.quote :: body⟩]) :
    s.faults = (Segment.place s.id .start init).filterMap Placed.fault? ++
      [.unterminatedString s.eof.span] := by
  rw [faults_of_placed_eq (placed_of_concat h)]
  rfl

/-- A quote behind a string that is open makes a token of it. -/
theorem closedBy_of_open (h : s.text.segments = init ++ [⟨.unclosed, Byte.quote :: body⟩])
    (hbody : Byte.quote ∉ body) :
    s.ClosedBy ((Fault.unterminatedString s.eof.span).diagnostic origin)
      (s.scan ⟨origin, []⟩) (s.closed.scan ⟨origin, []⟩) := by
  have hfaults := faults_of_open h
  have hsegments : s.closed.text.segments = _ := Segment.segments_concat_quote_of_open h hbody
  have hplaced := placed_of_concat hsegments
  constructor
  case last => simp [scan_eq, Sink.addFaults, hfaults]
  case span_eq => exact ⟨s.eof, by rw [scan_eq, tokens_eq, List.getLast?_concat], rfl, rfl⟩
  case isEmpty => exact ⟨rfl, congrArg Position.offset stop_eq_behind⟩
  case tokens_eq =>
    have htext : s.text = init.flatMap (·.text) ++ Byte.quote :: body := by
      rw [← s.text.flatMap_text_segments, h, List.flatMap_append, List.flatMap_singleton]
    have hstring : (s.scan ⟨origin, []⟩).1.filter (·.kind ≠ .eof) =
        (Segment.place s.id .start init).filterMap Placed.token? := by
      rw [scan_eq, filter_kind_tokens, placed_of_concat h, List.filterMap_append]
      exact List.append_nil _
    have hliteral : ((Byte.quote :: body ++ [Byte.quote]).drop 1).dropLast = body := by simp
    have heof : s.closed.eof =
        { line := s.closed.stop.line, span := ⟨s.closed.stop, s.closed.stop, s.id⟩ } := rfl
    refine ⟨_, body, htext, hbody, ?_⟩
    rw [hstring, scan_eq, tokens_of_placed_eq hplaced, heof, stop_closed]
    simp only [Placed.token?, Segment.kind?, Segment.literal?, hliteral]
    rfl
  case reports_eq =>
    simp only [scan_eq, Sink.addFaults, hfaults, faults_of_placed_eq hplaced, List.nil_append,
      List.map_append, List.map_singleton, List.dropLast_concat]
    exact List.append_nil _

/-- Only the string at the end is reported as one without an end. -/
theorem closedBy_of_mem (h : s.text.segments = init ++ [⟨.unclosed, Byte.quote :: body⟩])
    (hbody : Byte.quote ∉ body) (hinit : ∀ t ∈ init, t.shape ≠ .unclosed) {d : Diagnostic}
    (hd : d ∈ (s.scan ⟨origin, []⟩).2.entries) (hcode : d.code = some .unterminatedString) :
    s.ClosedBy d (s.scan ⟨origin, []⟩) (s.closed.scan ⟨origin, []⟩) := by
  rw [scan_eq] at hd
  obtain ⟨f, hf, rfl⟩ := List.mem_map.mp hd
  rw [faults_of_open h, List.mem_append, List.mem_singleton] at hf
  rcases hf with hf | rfl
  · exact absurd (Option.some.inj hcode) (code_ne_unterminated hinit f hf)
  · exact closedBy_of_open h hbody

theorem countP_unclosed_eq_zero (h : ∀ t ∈ init, t.shape ≠ .unclosed) :
    init.countP (·.shape = .unclosed) = 0 :=
  List.countP_eq_zero.mpr fun t ht => by simpa using h t ht

/-- A quote behind a text without an open string opens one, unless a comment takes it in. -/
theorem countP_unclosed_closed (hclosed : ∀ t ∈ s.text.segments, t.shape ≠ .unclosed) :
    s.closed.text.segments.countP (·.shape = .unclosed) = 1 ↔ ¬ s.text.EndsInComment := by
  constructor
  · rintro hone ⟨init, comment, hcut, hopen⟩
    have h := (cut_iff.mp hcut).symm
    rw [h, List.forall_mem_append] at hclosed
    rw [closed, Segment.segments_concat_quote_of_comment h hopen, List.countP_append,
      countP_unclosed_eq_zero hclosed.1] at hone
    cases hone
  · intro hcomment
    rw [closed, Segment.segments_concat_quote_of_closed hclosed hcomment, List.countP_append,
      countP_unclosed_eq_zero hclosed]
    rfl

/-- A scan reports one string without an end at most, and nothing after it. A quote behind the text
closes that string and repairs just this. Where none is reported a quote opens a string, unless the
text ends in a comment. -/
theorem scan_closed (s : Source) (origin : Bytes) :
    let found := s.scan ⟨origin, []⟩
    let closed := s.closed.scan ⟨origin, []⟩
    found.2.count (some .unterminatedString) ≤ 1 ∧
      (∀ d ∈ found.2.entries, d.code = some .unterminatedString → s.ClosedBy d found closed) ∧
      (found.2.count (some .unterminatedString) = 0 →
        (closed.2.count (some .unterminatedString) = 1 ↔ ¬ s.text.EndsInComment)) := by
  intro found closed
  have hcount : found.2.count _ = _ := s.count_unterminated origin
  have hcount' : closed.2.count _ = _ := s.closed.count_unterminated origin
  rcases (Segment.chained_segments s.text).closed_or_open with hinit | ⟨init, body, h, hbody, hinit⟩
  · rw [countP_unclosed_eq_zero hinit] at hcount
    refine ⟨hcount.trans_le (Nat.zero_le 1), fun d hd hcode => ?_, fun _ => ?_⟩
    · exact absurd (decide_eq_true hcode) (List.countP_eq_zero.mp hcount d hd)
    · rw [hcount', countP_unclosed_closed hinit]
  · have hone : s.text.segments.countP (·.shape = .unclosed) = 1 := by
      rw [h, List.countP_append, countP_unclosed_eq_zero hinit]
      rfl
    rw [hone] at hcount
    refine ⟨hcount.le, fun d hd hcode => closedBy_of_mem h hbody hinit hd hcode, fun hzero => ?_⟩
    exact absurd hzero (by omega)

/-- The string runs over two lines, and the quotes in the comment do not count. -/
theorem scan_closed_at :
    let s : Source := ⟨ascii "@ 1 // \"\n \"a\nb", ascii "a.lox", 3⟩
    let t : Source := ⟨ascii "x @ // \"", ascii "b.lox", 0⟩
    let found := s.scan ⟨[], []⟩
    let d : Diagnostic := ⟨.error, some .unterminatedString, [], ascii "Unterminated String.",
      ⟨⟨3, 2, 14⟩, ⟨3, 2, 14⟩, 3⟩⟩
    d ∈ found.2.entries ∧ d.code = some .unterminatedString ∧
      s.ClosedBy d found (s.closed.scan ⟨[], []⟩) ∧
      (t.scan ⟨[], []⟩).2.count (some .unterminatedString) = 0 ∧ t.text.EndsInComment ∧
      ((t.closed.scan ⟨[], []⟩).2.count (some .unterminatedString) = 1 ↔
        ¬ t.text.EndsInComment) := by
  intro s t found d
  have hd : d ∈ found.2.entries := by decide +kernel
  have hzero : (t.scan ⟨[], []⟩).2.count (some .unterminatedString) = 0 := by decide +kernel
  have hcomment : t.text.EndsInComment :=
    ⟨t.text.segments.dropLast, ascii "// \"", cut_iff.mpr (by decide +kernel), by decide⟩
  exact ⟨hd, rfl, (scan_closed s []).2.1 d hd rfl, hzero, hcomment, (scan_closed t []).2.2 hzero⟩

end Source

end LoxLex
