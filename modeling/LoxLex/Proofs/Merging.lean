import LoxLex.Proofs.Places
import LoxLex.Proofs.PositionOrder

/-!
# Merged spans

Two spans are merged by their lines and columns on one side and by their offsets on the other. In
one source both lead to the same places, so that any number of its spans, merged in any order, give
the stretch of the source that covers them all.

## Main definitions

* `Source.Merges` — the span that covers several spans of a source and nothing beyond them.

## Main statements

* `Source.Merges.concat`: one more span is merged.
* `Source.merges_foldl`: spans of a source are merged one after the other.
* `Source.scan_merged`: whatever a scan has found, merged in any order, is covered.
-/

namespace LoxLex.Source

variable {s : Source} {spans others : List Span} {p q span merged : Span}

/-- The spans of a source reach from the first start to the last end. -/
structure Merges (s : Source) (spans : List Span) (merged : Span) : Prop where
  least_mem : ∃ span ∈ spans, merged.start.offset = span.start.offset
  least_le : ∀ span ∈ spans, merged.start.offset ≤ span.start.offset
  greatest_mem : ∃ span ∈ spans, merged.stop.offset = span.stop.offset
  le_greatest : ∀ span ∈ spans, span.stop.offset ≤ merged.stop.offset
  locates : s.Locates merged

theorem Locates.eq_ofOffset (h : s.Locates span) :
    span = ⟨.ofOffset s.text span.start.offset, .ofOffset s.text span.stop.offset, s.id⟩ := by
  rw [← h.start_eq, ← h.stop_eq, ← h.file_eq]

/-- Merged by line and column, the spans of a source are merged by offset. -/
theorem Locates.merge_eq (hs : s.text.Countable) (hp : s.Locates p) (hq : s.Locates q) :
    p.merge q = ⟨.ofOffset s.text (min p.start.offset q.start.offset),
      .ofOffset s.text (max p.stop.offset q.stop.offset), s.id⟩ := by
  have hple := hp.start_le_stop.trans hp.stop_le_length
  have hqle := hq.start_le_stop.trans hq.stop_le_length
  have hstart := Position.least_ofOffset hs hple hqle
  have hstop := Position.greatest_ofOffset hs hp.stop_le_length hq.stop_le_length
  rw [← hp.start_eq, ← hq.start_eq] at hstart
  rw [← hp.stop_eq, ← hq.stop_eq] at hstop
  rw [Span.merge, hstart, hstop, hp.file_eq]

theorem locates_ofOffset {a b : Nat} (hab : a ≤ b) (hb : b ≤ s.text.length) :
    s.Locates ⟨.ofOffset s.text a, .ofOffset s.text b, s.id⟩ := by
  have ha := Position.offset_ofOffset (hab.trans hb)
  have hb' := Position.offset_ofOffset hb
  constructor <;> simp only [ha, hb', hab, hb]

theorem Locates.merge (hs : s.text.Countable) (hp : s.Locates p) (hq : s.Locates q) :
    s.Locates (p.merge q) := by
  rw [hp.merge_eq hs hq]
  apply locates_ofOffset
  · exact (Nat.min_le_left _ _).trans (hp.start_le_stop.trans (Nat.le_max_left _ _))
  · exact Nat.max_le.mpr ⟨hp.stop_le_length, hq.stop_le_length⟩

/-! ## Many spans -/

theorem merges_singleton (h : s.Locates span) : s.Merges [span] span := by
  constructor
  case locates => exact h
  all_goals simp

/-- One more span moves the ends as far as it reaches. -/
theorem Merges.concat (hs : s.text.Countable) (h : s.Merges spans merged) (hspan : s.Locates span) :
    s.Merges (spans ++ [span]) (merged.merge span) := by
  obtain ⟨first, hfirst, hstart⟩ := h.least_mem
  obtain ⟨last, hlast, hstop⟩ := h.greatest_mem
  have hleast := h.least_le
  have hgreatest := h.le_greatest
  have hmin : (merged.merge span).start.offset = min merged.start.offset span.start.offset := rfl
  have hmax : (merged.merge span).stop.offset = max merged.stop.offset span.stop.offset := rfl
  constructor
  case least_mem => grind
  case least_le => grind
  case greatest_mem => grind
  case le_greatest => grind
  case locates => exact h.locates.merge hs hspan

/-- So do many of them, one after the other. -/
theorem Merges.foldl (hs : s.text.Countable) (h : s.Merges spans merged)
    (hothers : ∀ span ∈ others, s.Locates span) :
    s.Merges (spans ++ others) (others.foldl Span.merge merged) := by
  induction others generalizing spans merged with
  | nil => simpa using h
  | cons span others ih =>
    have hnext := h.concat hs (hothers span List.mem_cons_self)
    have hrest := ih hnext fun span hspan => hothers span (List.mem_cons_of_mem _ hspan)
    simpa using hrest

theorem Merges.of_perm (h : s.Merges spans merged) (hperm : spans.Perm others) :
    s.Merges others merged := by
  obtain ⟨hleast, hle, hgreatest, hge, hlocates⟩ := h
  simp only [hperm.mem_iff] at hleast hle hgreatest hge
  exact ⟨hleast, hle, hgreatest, hge, hlocates⟩

/-- There is only one span that covers others and nothing beyond them. -/
theorem Merges.unique {other : Span} (h : s.Merges spans merged) (h' : s.Merges spans other) :
    merged = other := by
  have hstart : merged.start.offset = other.start.offset := by
    obtain ⟨first, hfirst, heq⟩ := h.least_mem
    obtain ⟨first', hfirst', heq'⟩ := h'.least_mem
    have := h.least_le first' hfirst'
    have := h'.least_le first hfirst
    omega
  have hstop : merged.stop.offset = other.stop.offset := by
    obtain ⟨last, hlast, heq⟩ := h.greatest_mem
    obtain ⟨last', hlast', heq'⟩ := h'.greatest_mem
    have := h.le_greatest last' hlast'
    have := h'.le_greatest last hlast
    omega
  rw [h.locates.eq_ofOffset, h'.locates.eq_ofOffset, hstart, hstop]

/-! ## Texts -/

/-- A part of a stretch of the source is within it as a text, too. -/
theorem Merges.slice_isInfix (h : s.Merges spans merged) (hspan : span ∈ spans)
    (hlocates : s.Locates span) : s.slice span <:+: s.slice merged := by
  have hstart := h.least_le span hspan
  have hstop := h.le_greatest span hspan
  have hsplit : s.slice span =
      ((s.slice merged).drop (span.start.offset - merged.start.offset)).take
        (span.stop.offset - span.start.offset) := by
    rw [hlocates.slice_eq, h.locates.slice_eq, List.drop_take, List.drop_drop, List.take_take]
    congr 1
    · omega
    · congr 1
      omega
  rw [hsplit]
  exact (List.take_prefix _ _).isInfix.trans (List.drop_suffix _ _).isInfix

/-! ## The spans of a scan -/

theorem locates_of_scan {sink : Sink} {reports : List Diagnostic}
    (hreports : (s.scan sink).2.entries = sink.entries ++ reports)
    (h : span ∈ (s.scan sink).1.map (·.span) ++ reports.map (·.span)) : s.Locates span := by
  rw [scan_eq] at hreports h
  have hfaults : reports = s.faults.map (Fault.diagnostic sink.origin) :=
    List.append_cancel_left hreports.symm
  rcases List.mem_append.mp h with h | h
  · obtain ⟨t, ht, rfl⟩ := List.mem_map.mp h
    exact locates_of_mem_tokens ht
  · obtain ⟨d, hd, rfl⟩ := List.mem_map.mp h
    obtain ⟨f, hf, rfl⟩ := List.mem_map.mp (hfaults ▸ hd)
    exact locates_of_mem_faults hf

/-- In a source that is short enough, the spans of any tokens and diagnostics of a scan, merged one
after the other in any order, give the span from the first start to the last end, which has the
text between these two and so the text of each of them. -/
theorem scan_merged (s : Source) (sink : Sink) (reports : List Diagnostic) (spans : List Span)
    (hs : s.text.length < 2 ^ 32 - 1)
    (hreports : (s.scan sink).2.entries = sink.entries ++ reports) (hne : spans ≠ [])
    (hspans : ∀ span ∈ spans, span ∈ (s.scan sink).1.map (·.span) ++ reports.map (·.span)) :
    ∃ merged, (∀ first rest, (first :: rest).Perm spans → rest.foldl Span.merge first = merged) ∧
      s.Merges spans merged ∧
      s.slice merged = (s.text.drop merged.start.offset).take
        (merged.stop.offset - merged.start.offset) ∧
      ∀ span ∈ spans, s.slice span <:+: s.slice merged := by
  have hlocates : ∀ span ∈ spans, s.Locates span :=
    fun span hspan => locates_of_scan hreports (hspans span hspan)
  have hfold : ∀ first rest, (first :: rest).Perm spans →
      s.Merges spans (rest.foldl Span.merge first) := by
    intro first rest hperm
    have hfirst := merges_singleton (hlocates first (hperm.subset List.mem_cons_self))
    have hrest : ∀ span ∈ rest, s.Locates span :=
      fun span hspan => hlocates span (hperm.subset (List.mem_cons_of_mem _ hspan))
    exact (hfirst.foldl hs hrest).of_perm hperm
  obtain ⟨first, rest, rfl⟩ := List.exists_cons_of_ne_nil hne
  have hmerged := hfold first rest (.refl _)
  refine ⟨rest.foldl Span.merge first, ?_, hmerged, hmerged.locates.slice_eq, ?_⟩
  · exact fun other others hperm => (hfold other others hperm).unique hmerged
  · exact fun span hspan => hmerged.slice_isInfix hspan (hlocates span hspan)

/-- A stray character on the second line and a word on the first, given in this order. -/
theorem scan_merged_two_lines :
    let s : Source := ⟨ascii "a\n@ \"b", ascii "one.lox", 7⟩
    let sink : Sink := ⟨ascii "Scanner", [⟨.warning, none, ascii "Host", ascii "careful", {}⟩]⟩
    let reports := (s.scan ⟨ascii "Scanner", []⟩).2.entries
    let spans : List Span := [⟨⟨2, 1, 2⟩, ⟨2, 2, 3⟩, 7⟩, ⟨⟨1, 1, 0⟩, ⟨1, 2, 1⟩, 7⟩]
    s.text.length < 2 ^ 32 - 1 ∧ (s.scan sink).2.entries = sink.entries ++ reports ∧ spans ≠ [] ∧
      (∀ span ∈ spans, span ∈ (s.scan sink).1.map (·.span) ++ reports.map (·.span)) ∧
      ∃ merged, (∀ first rest, (first :: rest).Perm spans → rest.foldl Span.merge first = merged) ∧
        s.Merges spans merged ∧
        s.slice merged = (s.text.drop merged.start.offset).take
          (merged.stop.offset - merged.start.offset) ∧
        ∀ span ∈ spans, s.slice span <:+: s.slice merged := by
  intro s sink reports spans
  have hs : s.text.length < 2 ^ 32 - 1 := by decide
  have hreports : (s.scan sink).2.entries = sink.entries ++ reports := by decide +kernel
  have hne : spans ≠ [] := List.cons_ne_nil _ _
  have hspans : ∀ span ∈ spans,
      span ∈ (s.scan sink).1.map (·.span) ++ reports.map (·.span) := by decide +kernel
  exact ⟨hs, hreports, hne, hspans, scan_merged s sink reports spans hs hreports hne hspans⟩

end LoxLex.Source
