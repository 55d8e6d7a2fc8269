import LoxLex.Proofs.Places

/-!
# Unexpected characters as blanks

What is unexpected keeps its neighbours apart just as blanks would. So a text with blanks in place
of all unexpected characters has the same tokens, each where it was, and nothing is unexpected in
it any more.

## Main definitions

* `Bytes.blankOut` — a text with spaces in place of what some spans cover.
* `Segment.blanks` — the blanks in place of a stray segment.
* `Source.blanked` — a source with spaces in place of what is stray.

## Main statements

* `Segment.Chained.flatMap_blanks`: with blanks in place of stray characters a chain is a chain.
* `Source.segments_blanked`: what is stray becomes blanks, and all else is cut as before.
* `Source.scan_blankOut`: with spaces in place of what is unexpected, a source has the same
  tokens and the other diagnostics.
-/

namespace LoxLex

/-- What stands in place of every byte that is blanked out. -/
def Byte.space : Byte := ' '.toUInt8

/-- The text with a space in place of every byte in one of the spans. -/
def Bytes.blankOut (spans : List Span) (text : Bytes) : Bytes :=
  text.mapIdx fun i b => if spans.any (·.covers i) then Byte.space else b

namespace Segment

/-- A blank for each byte of a stray segment; other segments stay as they are. -/
def blanks (s : Segment) : List Segment :=
  if s.shape = .stray then List.replicate s.text.length ⟨.blank, [Byte.space]⟩ else [s]

variable {s : Segment} {l : List Segment}

theorem blanks_of_stray (h : s.shape = .stray) :
    s.blanks = List.replicate s.text.length ⟨.blank, [Byte.space]⟩ := if_pos h

theorem blanks_of_ne_stray (h : s.shape ≠ .stray) : s.blanks = [s] := if_neg h

theorem flatMap_text_blanks_of_stray (h : s.shape = .stray) :
    s.blanks.flatMap (·.text) = List.replicate s.text.length Byte.space := by
  rw [blanks_of_stray h, List.flatMap_replicate]
  simp

/-! ## Chains with blanks -/

/-- What stops before stray characters stops before blanks in their place. -/
theorem stopsLike_flatMap_blanks (h : ∀ s ∈ l, s.text ≠ []) :
    StopsLike (l.flatMap (·.text)) ((l.flatMap blanks).flatMap (·.text)) := by
  induction l with
  | nil => exact .refl []
  | cons s l ih =>
    obtain ⟨hs, hl⟩ := List.forall_mem_cons.mp h
    rw [List.flatMap_cons, List.flatMap_cons, List.flatMap_append]
    by_cases hstray : s.shape = .stray
    · obtain ⟨b, rest, htext⟩ := List.exists_cons_of_ne_nil hs
      rw [flatMap_text_blanks_of_stray hstray, htext]
      exact .cons_of_isBlank rfl
    · rw [blanks_of_ne_stray hstray, List.flatMap_singleton]
      exact (ih hl).append s.text

theorem Chained.replicate_append (h : Chained l) (n : Nat) :
    Chained (List.replicate n ⟨.blank, [Byte.space]⟩ ++ l) := by
  induction n with
  | zero => exact h
  | succ n ih => exact .cons (.spelled (.blank rfl)) trivial ih

theorem Chained.flatMap_blanks (h : Chained l) : Chained (l.flatMap blanks) := by
  induction h with
  | nil => exact .nil
  | @cons s rest hs hstop hrest ih =>
    rw [List.flatMap_cons]
    by_cases hstray : s.shape = .stray
    · rw [blanks_of_stray hstray]
      exact ih.replicate_append _
    · rw [blanks_of_ne_stray hstray]
      have hlike := stopsLike_flatMap_blanks fun t ht => (hrest.formed_of_mem t ht).text_ne_nil
      exact .cons hs (hstop.of_stopsLike hlike) ih

/-! ## Places behind blanks -/

section Place

variable {file : UInt32} {start : Position}

/-- A stray character is written in one line, so blanks lead just as far. -/
theorem Formed.after_blanks (h : s.Formed) :
    start.after (s.blanks.flatMap (·.text)) = start.after s.text := by
  by_cases hstray : s.shape = .stray
  · rw [flatMap_text_blanks_of_stray hstray]
    refine Position.after_congr (List.forall₂_iff_get.mpr ⟨List.length_replicate, ?_⟩)
    intro i hi hi'
    have hnewline : s.text[i] ≠ Byte.newline := fun hnewline =>
      h.newline_notMem (by rw [hstray]; rfl) (hnewline ▸ List.getElem_mem hi')
    simp [hnewline, show Byte.space ≠ Byte.newline by decide]
  · rw [blanks_of_ne_stray hstray, List.flatMap_singleton]

theorem after_flatMap_blanks (h : ∀ s ∈ l, s.Formed) (p : Position) :
    p.after ((l.flatMap blanks).flatMap (·.text)) = p.after (l.flatMap (·.text)) := by
  induction l generalizing p with
  | nil => rfl
  | cons s l ih =>
    obtain ⟨hs, hl⟩ := List.forall_mem_cons.mp h
    rw [List.flatMap_cons, List.flatMap_append, Position.after_append, hs.after_blanks, ih hl,
      List.flatMap_cons, Position.after_append]

/-- Blanks are placed where the stray characters were, and all else stays in its place. -/
theorem filterMap_place_flatMap_blanks {α : Type} {g : Placed → Option α}
    (hg : ∀ p : Placed, p.segment.shape = .blank → g p = none) (h : ∀ s ∈ l, s.Formed) :
    (place file start (l.flatMap blanks)).filterMap g =
      ((place file start l).filter (·.segment.shape ≠ .stray)).filterMap g := by
  induction l generalizing start with
  | nil => rfl
  | cons s l ih =>
    obtain ⟨hs, hl⟩ := List.forall_mem_cons.mp h
    rw [List.flatMap_cons, place_append, hs.after_blanks, List.filterMap_append, ih hl, place]
    by_cases hstray : s.shape = .stray
    · have hnone : (place file start s.blanks).filterMap g = [] := by
        refine List.filterMap_eq_nil_iff.mpr fun p hp => hg p ?_
        have hmem := List.mem_map_of_mem (f := Placed.segment) hp
        rw [map_segment_place, blanks_of_stray hstray] at hmem
        rw [List.eq_of_mem_replicate hmem]
      rw [hnone, List.filter_cons_of_neg (by simpa using hstray), List.nil_append]
    · rw [blanks_of_ne_stray hstray, List.filter_cons_of_pos (by simpa using hstray),
        List.filterMap_cons]
      cases h : g ⟨s, ⟨start, start.after s.text, file⟩⟩ <;> simp [place, h]

/-- Spaces in place of the bytes of stray segments make blanks of them. -/
theorem flatMap_text_flatMap_blanks {q : Nat → Bool} (h : ∀ p ∈ place file start l, ∀ i,
      p.span.covers i → q i = decide (p.segment.shape = .stray)) :
    (l.flatMap blanks).flatMap (·.text) = (l.flatMap (·.text)).mapIdx fun i b =>
      if q (start.offset + i) then Byte.space else b := by
  induction l generalizing start with
  | nil => rfl
  | cons s l ih =>
    obtain ⟨hs, hl⟩ := List.forall_mem_cons.mp h
    have hq : ∀ i < s.text.length, q (start.offset + i) = decide (s.shape = .stray) := by
      intro i hi
      refine hs _ (Span.covers_iff.mpr ⟨Nat.le_add_right _ _, ?_⟩)
      rw [Position.offset_after]
      exact Nat.add_lt_add_left hi _
    have hhead : s.blanks.flatMap (·.text) = s.text.mapIdx fun i b =>
        if q (start.offset + i) then Byte.space else b := by
      by_cases hstray : s.shape = .stray
      · rw [flatMap_text_blanks_of_stray hstray]
        refine List.ext_getElem (by simp) fun i hi _ => ?_
        simp [hq i (by simpa using hi), hstray]
      · rw [blanks_of_ne_stray hstray, List.flatMap_singleton]
        refine List.ext_getElem (by simp) fun i hi _ => ?_
        simp [hq i hi, hstray]
    rw [List.flatMap_cons, List.flatMap_append, List.flatMap_cons, List.mapIdx_append, hhead,
      ih hl]
    simp only [Position.offset_after, Nat.add_assoc, Nat.add_comm s.text.length]

end Place

end Segment

/-! ## Scans without what is unexpected -/

namespace Source

variable {s : Source}

/-- The source with a space in place of every byte of what is stray. -/
def blanked (s : Source) : Source :=
  { s with text := s.text.blankOut ((s.placed.filter (·.segment.shape = .stray)).map (·.span)) }

theorem segments_blanked (s : Source) :
    s.blanked.text.segments = s.text.segments.flatMap Segment.blanks := by
  have hspans : ∀ p ∈ s.placed, ∀ i, p.span.covers i →
      ((s.placed.filter (·.segment.shape = .stray)).map (·.span)).any (·.covers i) =
        decide (p.segment.shape = .stray) := by
    intro p hp i hi
    rw [Bool.eq_iff_iff, decide_eq_true_iff, List.any_map, List.any_eq_true]
    constructor
    · rintro ⟨q, hq, hqi⟩
      obtain ⟨hq, hstray⟩ := List.mem_filter.mp hq
      rw [eq_of_covers hp hq hi hqi]
      exact of_decide_eq_true hstray
    · exact fun hstray => ⟨p, List.mem_filter.mpr ⟨hp, decide_eq_true hstray⟩, hi⟩
  have htext := Segment.flatMap_text_flatMap_blanks hspans
  simp only [Bytes.flatMap_text_segments, Position.start, Nat.zero_add] at htext
  rw [blanked, Bytes.blankOut, ← htext]
  exact Segment.segments_flatMap_text (Segment.chained_segments s.text).flatMap_blanks

theorem stop_blanked (s : Source) : s.blanked.stop = s.stop := by
  have hformed := (Segment.chained_segments s.text).formed_of_mem
  rw [stop, stop, ← Bytes.flatMap_text_segments s.blanked.text, segments_blanked,
    Segment.after_flatMap_blanks hformed, Bytes.flatMap_text_segments]

theorem filterMap_placed_blanked {α : Type} {g : Placed → Option α}
    (hg : ∀ p : Placed, p.segment.shape = .blank → g p = none) :
    s.blanked.placed.filterMap g =
      (s.placed.filter (·.segment.shape ≠ .stray)).filterMap g := by
  rw [placed, segments_blanked]
  exact Segment.filterMap_place_flatMap_blanks hg (Segment.chained_segments s.text).formed_of_mem

theorem tokens_blanked (s : Source) : s.blanked.tokens = s.tokens := by
  have hblank : ∀ p : Placed, p.segment.shape = .blank → p.token? = none :=
    fun p hp => Placed.token?_eq_none (by rw [hp]; rfl)
  have hstray : ∀ p : Placed,
      (if p.segment.shape ≠ .stray then p.token? else none) = p.token? := by
    intro p
    split
    · rfl
    · next hp => exact (Placed.token?_eq_none (by rw [not_not.mp hp]; rfl)).symm
  rw [tokens_eq, tokens_eq, eof, eof, stop_blanked, filterMap_placed_blanked hblank,
    List.filterMap_filter]
  simp only [decide_eq_true_eq, hstray]
  rfl

/-- The diagnostics but for those of unexpected characters are left. -/
theorem map_diagnostic_faults_blanked (s : Source) (origin : Bytes) :
    s.blanked.faults.map (Fault.diagnostic origin) =
      (s.faults.map (Fault.diagnostic origin)).filter (·.code ≠ some .unexpectedCharacter) := by
  have hblank : ∀ p : Placed, p.segment.shape = .blank → p.fault? = none :=
    fun p hp => Placed.fault?_eq_none (by rw [hp]; rfl)
  have hpick : ∀ p : Placed,
      (if p.segment.shape ≠ .stray then p.fault?.map (Fault.diagnostic origin) else none) =
        (p.fault?.map (Fault.diagnostic origin)).filter
          (·.code ≠ some .unexpectedCharacter) := by
    intro p
    cases hshape : p.segment.shape <;>
      simp [Placed.fault?, hshape, Fault.diagnostic, Fault.code, Option.filter]
  rw [faults, faults, filterMap_placed_blanked hblank, List.map_filterMap, List.map_filterMap,
    List.filter_filterMap, List.filterMap_filter]
  simp only [decide_eq_true_eq, hpick]

/-- All that can be reported besides is that a string is still open where the text ends. -/
theorem filter_diagnostic_faults (s : Source) (origin : Bytes) :
    let kept := (s.faults.map (Fault.diagnostic origin)).filter
      (·.code ≠ some .unexpectedCharacter)
    kept = [] ∨ ∃ d, kept = [d] ∧ d.code = some .unterminatedString := by
  intro kept
  have hkept : ∀ d ∈ kept, d.code = some .unterminatedString ∧
      d.span.start.offset = s.text.length := by
    intro d hd
    obtain ⟨hd, hcode⟩ := List.mem_filter.mp hd
    obtain ⟨f, hf, rfl⟩ := List.mem_map.mp hd
    obtain ⟨p, hp, hf⟩ := List.mem_filterMap.mp hf
    rcases Placed.fault?_eq_some hf with ⟨-, hcode', -⟩ | ⟨hshape, hcode', hspan⟩
    · exact absurd (congrArg some hcode') (of_decide_eq_true hcode)
    · refine ⟨congrArg some hcode', ?_⟩
      rw [Fault.diagnostic, hspan]
      exact stop_eq_length_of_unclosed hp hshape
  have hpairs : kept.Pairwise fun d e => d.span.Before e.span := by
    refine .filter _ (List.pairwise_map.mpr ?_)
    exact List.pairwise_map.mp s.pairwise_faults
  clear_value kept
  cases kept with
  | nil => exact .inl rfl
  | cons d rest =>
    obtain ⟨hd, hrest⟩ := List.forall_mem_cons.mp hkept
    cases rest with
    | nil => exact .inr ⟨d, rfl, hd.1⟩
    | cons e rest =>
      -- both would start where the text ends
      have he := (List.forall_mem_cons.mp hrest).1
      have hlt := (List.rel_of_pairwise_cons hpairs List.mem_cons_self).2
      rw [hd.2, he.2] at hlt
      exact absurd hlt (Nat.lt_irrefl _)

/-- Recovery is local: with spaces in place of what is unexpected, a source has the same tokens,
each in its place, and is left with the other diagnostics, of which there is at most one. -/
theorem scan_blankOut (s : Source) (sink : Sink) :
    let reports := (s.scan ⟨sink.origin, []⟩).2.entries
    let spans := (reports.filter (·.code = some .unexpectedCharacter)).map (·.span)
    let kept := reports.filter (·.code ≠ some .unexpectedCharacter)
    let blanked : Source := { s with text := s.text.blankOut spans }
    blanked.text.length = s.text.length ∧
      blanked.scan sink = ((s.scan sink).1, { sink with entries := sink.entries ++ kept }) ∧
      (kept = [] ∨ ∃ d, kept = [d] ∧ d.code = some .unterminatedString) := by
  intro reports spans kept blanked
  have hreports : reports = s.faults.map (Fault.diagnostic sink.origin) := by
    simp only [reports, scan_eq]
    rfl
  have hblanked : blanked = s.blanked := by
    simp only [blanked, spans, Source.blanked, hreports, s.map_span_unexpected sink.origin]
  refine ⟨List.length_mapIdx, ?_, ?_⟩
  · rw [hblanked, scan_eq, scan_eq, Sink.addFaults, tokens_blanked,
      map_diagnostic_faults_blanked, ← hreports]
  · simp only [kept, hreports]
    exact s.filter_diagnostic_faults sink.origin

end Source

end LoxLex
