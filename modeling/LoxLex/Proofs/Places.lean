import LoxLex.Proofs.Chain
import LoxLex.Proofs.Placed
import LoxLex.Proofs.Position

/-!
# Places of tokens and diagnostics

The spans that come out of a scan tell the truth about the source: their lines and columns can
be counted, their texts are the lexemes, and they follow each other without overlap.

## Main definitions

* `Source.Locates` — the spans whose places are those of their offsets.
* `Span.Before`, `Span.covers` — one span behind the other, and a byte in a span.
* `Source.WellPlaced` — what holds of the spans of a scan.

## Main statements

* `Source.locates_of_mem_placed`: a placed segment stands where its span says.
* `Source.scan_wellPlaced`: every scan is well placed.
-/

namespace LoxLex

/-- The first span ends before the second starts, and starts before it. -/
def Span.Before (a b : Span) : Prop :=
  a.stop.offset ≤ b.start.offset ∧ a.start.offset < b.start.offset

/-- Whether the byte at the offset `i` lies in the span. -/
def Span.covers (s : Span) (i : Nat) : Bool := s.start.offset ≤ i && i < s.stop.offset

theorem Span.covers_iff {s : Span} {i : Nat} :
    s.covers i ↔ s.start.offset ≤ i ∧ i < s.stop.offset := by
  simp [covers]

/-- The span lies in the source, and its places are those that its offsets have there. -/
structure Source.Locates (s : Source) (span : Span) : Prop where
  start_le_stop : span.start.offset ≤ span.stop.offset
  stop_le_length : span.stop.offset ≤ s.text.length
  start_eq : span.start = .ofOffset s.text span.start.offset
  stop_eq : span.stop = .ofOffset s.text span.stop.offset
  file_eq : span.file = s.id

/-! ## Placed segments -/

namespace Segment

variable {file : UInt32} {start : Position} {segments : List Segment} {p : Placed}

theorem pairwise_place (h : ∀ s ∈ segments, s.text ≠ []) :
    (place file start segments).Pairwise fun p q => p.span.Before q.span := by
  induction segments generalizing start with
  | nil => exact .nil
  | cons s rest ih =>
    refine .cons ?_ (ih fun t ht => h t (by simp [ht]))
    intro q hq
    obtain ⟨before, behind, -, hspan⟩ := exists_of_mem_place hq
    have hs := List.length_pos_iff.mpr (h s (by simp))
    simp only [Span.Before, hspan, Position.offset_after]
    omega

end Segment

namespace Source

variable {s : Source} {p : Placed}

theorem exists_of_mem_placed (h : p ∈ s.placed) :
    ∃ before behind, s.text = before ++ (p.segment.text ++ behind) ∧
      p.span = ⟨.behind before, .behind (before ++ p.segment.text), s.id⟩ := by
  obtain ⟨before, behind, hsegments, hspan⟩ := Segment.exists_of_mem_place h
  refine ⟨before.flatMap (·.text), behind.flatMap (·.text), ?_, ?_⟩
  · rw [← Bytes.flatMap_text_segments s.text, hsegments, List.flatMap_append, List.flatMap_cons]
  · rw [hspan, ← Position.after_append, Position.start_after, Position.start_after]

theorem segment_text_ne_nil (h : p ∈ s.placed) : p.segment.text ≠ [] := by
  obtain ⟨before, behind, hsegments, -⟩ := Segment.exists_of_mem_place h
  exact Bytes.text_ne_nil_of_mem_segments (hsegments ▸ List.mem_append_right _ (List.mem_cons_self))

theorem offset_stop_of_mem_placed (h : p ∈ s.placed) :
    p.span.stop.offset = p.span.start.offset + p.segment.text.length := by
  obtain ⟨before, behind, -, hspan⟩ := exists_of_mem_placed h
  simp [hspan, Position.behind]

theorem offset_lt_of_mem_placed (h : p ∈ s.placed) : p.span.start.offset < p.span.stop.offset := by
  rw [offset_stop_of_mem_placed h]
  exact Nat.lt_add_of_pos_right (List.length_pos_iff.mpr (segment_text_ne_nil h))

theorem getElem?_of_mem_placed (h : p ∈ s.placed) {i : Nat} (hi : i < p.segment.text.length) :
    s.text[p.span.start.offset + i]? = p.segment.text[i]? := by
  obtain ⟨before, behind, htext, hspan⟩ := exists_of_mem_placed h
  rw [htext, hspan, Position.behind, List.getElem?_append_right (Nat.le_add_right _ _),
    Nat.add_sub_cancel_left, List.getElem?_append_left hi]

theorem locates_of_mem_placed (h : p ∈ s.placed) : s.Locates p.span := by
  obtain ⟨before, behind, htext, hspan⟩ := exists_of_mem_placed h
  rw [hspan]
  constructor
  · simp [Position.behind]
  · simp [Position.behind, htext]
  · exact htext ▸ (Position.ofOffset_length_append _ _).symm
  · rw [htext, ← List.append_assoc]
    exact (Position.ofOffset_length_append _ _).symm
  · rfl

theorem take_drop_of_mem_placed (h : p ∈ s.placed) :
    (s.text.drop p.span.start.offset).take (p.span.stop.offset - p.span.start.offset) =
      p.segment.text := by
  obtain ⟨before, behind, htext, hspan⟩ := exists_of_mem_placed h
  simp [hspan, htext, Position.behind]

theorem Locates.slice_eq {span : Span} (h : s.Locates span) : s.slice span =
    (s.text.drop span.start.offset).take (span.stop.offset - span.start.offset) := by
  rw [slice, if_neg]
  have := h.start_le_stop
  have := h.stop_le_length
  omega

theorem Locates.atEnd {span : Span} (h : s.Locates span) : s.Locates span.atEnd :=
  ⟨Nat.le_refl _, h.stop_le_length, h.stop_eq, h.stop_eq, h.file_eq⟩

theorem stop_eq_behind : s.stop = .behind s.text := Position.start_after s.text

theorem locates_eof : s.Locates s.eof.span := by
  rw [eof, stop_eq_behind]
  refine ⟨Nat.le_refl _, Nat.le_refl _, ?_, ?_, rfl⟩ <;> simp [Position.ofOffset, Position.behind]

theorem before_eof_of_mem_placed (h : p ∈ s.placed) : p.span.Before s.eof.span := by
  have hlt := offset_lt_of_mem_placed h
  have hle := (locates_of_mem_placed h).stop_le_length
  have heof : s.eof.span.start.offset = s.text.length := congrArg Position.offset stop_eq_behind
  rw [Span.Before, heof]
  omega

theorem pairwise_placed : s.placed.Pairwise fun p q => p.span.Before q.span :=
  Segment.pairwise_place fun _ => Bytes.text_ne_nil_of_mem_segments

theorem formed_of_mem_placed (h : p ∈ s.placed) : p.segment.Formed :=
  (Segment.chained_segments s.text).formed_of_mem _ (segment_mem_of_mem_placed h)

theorem tokens_of_placed_eq {l r : List Placed} (h : s.placed = l ++ p :: r) :
    s.tokens = l.filterMap Placed.token? ++
      (p.token?.toList ++ (r.filterMap Placed.token? ++ [s.eof])) := by
  rw [tokens_eq, h, List.filterMap_append, List.filterMap_cons]
  cases p.token? <;> simp

theorem faults_of_placed_eq {l r : List Placed} (h : s.placed = l ++ p :: r) :
    s.faults = l.filterMap Placed.fault? ++
      (p.fault?.toList ++ r.filterMap Placed.fault?) := by
  rw [faults, h, List.filterMap_append, List.filterMap_cons]
  cases p.fault? <;> simp

/-- No byte lies in two segments. -/
theorem eq_of_covers {q : Placed} {i : Nat} (hp : p ∈ s.placed) (hq : q ∈ s.placed)
    (hpi : p.span.covers i) (hqi : q.span.covers i) : p = q := by
  have hapart : ∀ {p q : Placed}, p.span.Before q.span →
      p.span.covers i → q.span.covers i → p = q := by
    intro p q hbefore hpi hqi
    rw [Span.covers_iff] at hpi hqi
    have := hbefore.1
    omega
  have hpairs := List.Pairwise.forall_of_forall_of_flip
    (R := fun p q : Placed => p.span.covers i → q.span.covers i → p = q) (fun _ _ _ _ => rfl)
    (s.pairwise_placed.imp hapart)
    (s.pairwise_placed.imp fun h hqi hpi => (hapart h hpi hqi).symm)
  exact hpairs hp hq hpi hqi

end Source

/-! ## The places of a scan -/

/-- The spans of tokens and diagnostics are places in the source, tokens have the text and the
line of their spans, and all but the end of the file and of an unterminated string cover
something. Tokens come one behind the other, diagnostics too, and so do tokens and unexpected
characters when they are put in order together. -/
structure Source.WellPlaced (s : Source) (tokens : List Token) (reports : List Diagnostic) :
    Prop where
  locates_token : ∀ t ∈ tokens, s.Locates t.span
  locates_report : ∀ d ∈ reports, s.Locates d.span
  line_eq : ∀ t ∈ tokens, t.line = t.span.stop.line
  slice_eq : ∀ t ∈ tokens, s.slice t.span = t.lexeme
  lexeme_eq : ∀ t ∈ tokens, t.lexeme =
    (s.text.drop t.span.start.offset).take (t.span.stop.offset - t.span.start.offset)
  nonempty_token : ∀ t ∈ tokens, t.kind ≠ .eof → t.span.start.offset < t.span.stop.offset
  nonempty_report : ∀ d ∈ reports, d.code = some .unexpectedCharacter →
    d.span.start.offset < d.span.stop.offset
  ascending_tokens : (tokens.map (·.span)).Pairwise Span.Before
  ascending_reports : (reports.map (·.span)).Pairwise Span.Before
  apart : ∃ spans : List Span, spans.Pairwise Span.Before ∧ spans.Perm (tokens.map (·.span) ++
    (reports.filter (·.code = some .unexpectedCharacter)).map (·.span))
  eof : ∃ t, tokens.getLast? = some t ∧ t.kind = .eof ∧ t.span.start.offset = s.text.length ∧
    t.span.stop.offset = s.text.length

namespace Source

variable {s : Source} {p : Placed}

/-- A token is the end of the file or stands where its segment was placed. -/
theorem exists_of_mem_tokens {t : Token} (h : t ∈ s.tokens) :
    t = s.eof ∨ ∃ p ∈ s.placed, p.token? = some t := by
  rw [tokens_eq] at h
  rcases List.mem_append.mp h with h | h
  · exact .inr (List.mem_filterMap.mp h)
  · exact .inl (List.mem_singleton.mp h)

theorem locates_of_mem_tokens {t : Token} (h : t ∈ s.tokens) : s.Locates t.span := by
  rcases exists_of_mem_tokens h with rfl | ⟨p, hp, ht⟩
  · exact locates_eof
  · obtain ⟨-, -, -, hspan⟩ := Placed.token?_eq_some ht
    exact hspan ▸ locates_of_mem_placed hp

theorem lexeme_of_mem_tokens {t : Token} (h : t ∈ s.tokens) : t.lexeme =
    (s.text.drop t.span.start.offset).take (t.span.stop.offset - t.span.start.offset) := by
  rcases exists_of_mem_tokens h with rfl | ⟨p, hp, ht⟩
  · simp [eof]
  · obtain ⟨-, hlexeme, -, hspan⟩ := Placed.token?_eq_some ht
    rw [hlexeme, hspan, take_drop_of_mem_placed hp]

theorem locates_of_mem_faults {f : Fault} (h : f ∈ s.faults) : s.Locates f.span := by
  obtain ⟨p, hp, hf⟩ := List.mem_filterMap.mp h
  have hlocates := locates_of_mem_placed hp
  rcases Placed.fault?_eq_some hf with ⟨-, -, hspan⟩ | ⟨-, -, hspan⟩
  · exact hspan ▸ hlocates
  · exact hspan ▸ hlocates.atEnd

theorem map_span_tokens : s.tokens.map (·.span) =
    (s.placed.filter (·.segment.kind?.isSome)).map (·.span) ++ [s.eof.span] := by
  have hpick : ∀ p : Placed, p.token?.map (·.span) =
      if p.segment.kind?.isSome then some p.span else none := by
    intro p
    unfold Placed.token?
    cases p.segment.kind? <;> rfl
  rw [tokens_eq, List.map_append, map_filterMap_of_pick hpick, List.map_singleton]

/-- The unexpected characters of a scan are what is stray. -/
theorem filter_unexpected (origin : Bytes) :
    (s.faults.map (Fault.diagnostic origin)).filter (·.code = some .unexpectedCharacter) =
      (s.placed.filter (·.segment.shape = .stray)).map fun p =>
        (Fault.unexpectedCharacter p.segment.text p.span).diagnostic origin := by
  have hpick : ∀ p : Placed, ((p.fault?.map (Fault.diagnostic origin)).filter
      (·.code = some .unexpectedCharacter)).map (fun d => d) =
        if decide (p.segment.shape = .stray) then
          some ((Fault.unexpectedCharacter p.segment.text p.span).diagnostic origin)
        else none := by
    intro p
    unfold Placed.fault?
    split <;> simp_all [Fault.diagnostic, Fault.code]
  rw [faults, List.map_filterMap, List.filter_filterMap, ← List.map_id' (List.filterMap _ _),
    map_filterMap_of_pick hpick]

theorem map_span_unexpected (origin : Bytes) :
    ((s.faults.map (Fault.diagnostic origin)).filter
      (·.code = some .unexpectedCharacter)).map (·.span) =
    (s.placed.filter (·.segment.shape = .stray)).map (·.span) := by
  rw [filter_unexpected, List.map_map]
  rfl

theorem pairwise_span_append_eof {q : Placed → Bool} :
    ((s.placed.filter q).map (·.span) ++ [s.eof.span]).Pairwise Span.Before := by
  refine List.pairwise_append.mpr ⟨?_, List.pairwise_singleton _ _, ?_⟩
  · exact List.pairwise_map.mpr (pairwise_placed.filter q)
  · intro a ha b hb
    obtain ⟨p, hp, rfl⟩ := List.mem_map.mp ha
    rw [List.mem_singleton.mp hb]
    exact before_eof_of_mem_placed (List.mem_filter.mp hp).1

/-- A string without an end runs to the end of the text. -/
theorem stop_eq_length_of_unclosed (h : p ∈ s.placed) (hshape : p.segment.shape = .unclosed) :
    p.span.stop.offset = s.text.length := by
  obtain ⟨before, behind, hsegments, hspan⟩ := Segment.exists_of_mem_place h
  have hchain := (hsegments ▸ Segment.chained_segments s.text).of_append
  cases hchain with
  | cons hs hstop hrest =>
    rw [Segment.StopsAt, hshape] at hstop
    have htext := congrArg (·.flatMap (·.text)) hsegments
    simp only [Bytes.flatMap_text_segments, List.flatMap_append, List.flatMap_cons] at htext
    rw [hspan, htext, show behind.flatMap (·.text) = [] from hstop]
    simp [Position.start]

theorem pairwise_faults : (s.faults.map (·.span)).Pairwise Span.Before := by
  rw [faults, List.pairwise_map, List.pairwise_filterMap]
  refine pairwise_placed.imp_of_mem fun {p q} hp hq hbefore f hf g hg => ?_
  obtain ⟨hle, hlt⟩ := hbefore
  have hq' := offset_lt_of_mem_placed hq
  have hlength := (locates_of_mem_placed hq).stop_le_length
  rcases Placed.fault?_eq_some hf with ⟨-, -, hf⟩ | ⟨hshape, -, -⟩
  · rw [hf]
    rcases Placed.fault?_eq_some hg with ⟨-, -, hg⟩ | ⟨-, -, hg⟩
    · exact hg ▸ ⟨hle, hlt⟩
    · rw [hg, Span.Before, Span.start_atEnd]
      omega
  · -- nothing is placed behind a string without an end
    have hstop := stop_eq_length_of_unclosed hp hshape
    omega

/-- The placed segments that are tokens or stray are the tokens and the stray ones. -/
theorem perm_placed : (s.placed.filter fun p => p.segment.kind?.isSome ||
      p.segment.shape = .stray).Perm
    (s.placed.filter (·.segment.kind?.isSome) ++ s.placed.filter (·.segment.shape = .stray)) := by
  refine (List.filter_append_perm (·.segment.kind?.isSome) _).symm.trans ?_
  rw [List.filter_filter, List.filter_filter]
  refine .append (.of_eq (List.filter_congr fun p _ => ?_))
    (.of_eq (List.filter_congr fun p _ => ?_))
  · cases p.segment.kind? <;> simp
  · by_cases hshape : p.segment.shape = .stray
    · simp [Segment.kind?, hshape]
    · cases p.segment.kind? <;> simp [hshape]

theorem perm_spans (origin : Bytes) :
    ((s.placed.filter fun p => p.segment.kind?.isSome ||
      p.segment.shape = .stray).map (·.span) ++ [s.eof.span]).Perm
    (s.tokens.map (·.span) ++ ((s.faults.map (Fault.diagnostic origin)).filter
      (·.code = some .unexpectedCharacter)).map (·.span)) := by
  rw [map_span_tokens, map_span_unexpected, List.append_assoc]
  refine ((perm_placed.map (·.span)).append_right _).trans ?_
  rw [List.map_append, List.append_assoc]
  exact .append_left _ List.perm_append_comm

end Source

/-- Every scan is well placed. -/
theorem Source.scan_wellPlaced (s : Source) (sink : Sink) :
    ∃ tokens reports, s.scan sink = (tokens, { sink with entries := sink.entries ++ reports }) ∧
      s.WellPlaced tokens reports := by
  refine ⟨s.tokens, s.faults.map (Fault.diagnostic sink.origin), s.scan_eq sink, ?_⟩
  constructor
  case locates_token => exact fun t => locates_of_mem_tokens
  case locates_report => exact List.forall_mem_map.mpr fun f => locates_of_mem_faults
  case line_eq =>
    intro t ht
    rcases exists_of_mem_tokens ht with rfl | ⟨p, -, hp⟩
    · rfl
    · obtain ⟨-, -, hline, hspan⟩ := Placed.token?_eq_some hp
      rw [hline, hspan]
  case slice_eq =>
    intro t ht
    rw [(locates_of_mem_tokens ht).slice_eq, lexeme_of_mem_tokens ht]
  case lexeme_eq => exact fun t => lexeme_of_mem_tokens
  case nonempty_token =>
    intro t ht heof
    rcases exists_of_mem_tokens ht with rfl | ⟨p, hp, ht⟩
    · exact absurd rfl heof
    · obtain ⟨-, -, -, hspan⟩ := Placed.token?_eq_some ht
      exact hspan ▸ offset_lt_of_mem_placed hp
  case nonempty_report =>
    refine List.forall_mem_map.mpr fun f hf hcode => ?_
    obtain ⟨p, hp, hf⟩ := List.mem_filterMap.mp hf
    rcases Placed.fault?_eq_some hf with ⟨-, -, hspan⟩ | ⟨-, hcode', -⟩
    · have hlt := offset_lt_of_mem_placed hp
      rw [← hspan] at hlt
      exact hlt
    · rw [Fault.diagnostic, hcode'] at hcode
      cases hcode
  case ascending_tokens => exact map_span_tokens ▸ pairwise_span_append_eof
  case ascending_reports =>
    rw [List.map_map]
    exact pairwise_faults
  case apart => exact ⟨_, pairwise_span_append_eof, perm_spans sink.origin⟩
  case eof =>
    have hstop : s.eof.span.stop.offset = s.text.length := congrArg Position.offset stop_eq_behind
    exact ⟨s.eof, by rw [tokens_eq, List.getLast?_concat], rfl, hstop, hstop⟩

end LoxLex
