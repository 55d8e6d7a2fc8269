import Mathlib.Data.List.Basic
import LoxLex.Proofs.Chain
import LoxLex.Proofs.Placed

/-!
# Tokens written apart

The lexemes of a scan can be written out again with blanks between them, however many and
whichever. What is read back are the same tokens, even where they would not have stayed apart
without a blank, and nothing is left to report.

## Main definitions

* `Gap` — what may stand between two lexemes.
* `Bytes.spaced` — lexemes joined with gaps.
* `Token.content` — what a token is wherever it stands.

## Main statements

* `Segment.filter_segments_spaced`: joined with gaps, tokens are cut apart again.
* `Source.scan_spaced`: joined with gaps, the lexemes of a scan are scanned to the same tokens.
-/

namespace LoxLex

/-- Blanks, at least one of them. -/
structure Gap where
  blanks : Bytes
  ne_nil : blanks ≠ []
  isBlank : ∀ b ∈ blanks, b.isBlank

/-- Lexemes joined with gaps; `gap i` stands behind the lexeme with the index `i`. -/
def Bytes.spaced (gap : Nat → Gap) : List Bytes → Bytes
  | [] => []
  | [lexeme] => lexeme
  | lexeme :: next :: rest =>
    lexeme ++ ((gap 0).blanks ++ spaced (fun i => gap (i + 1)) (next :: rest))

/-- Kind, lexeme and literal of a token. -/
def Token.content (t : Token) : Kind × Bytes × Option Literal := (t.kind, t.lexeme, t.literal)

/-! ## Tokens stop before blanks -/

namespace Segment

variable {s : Segment} {tail : Bytes}

theorem fraction_eq_nil_of_isBlank (h : ∀ c ∈ tail.head?, c.isBlank) : fraction tail = [] := by
  fun_cases fraction tail with
  | case2 c rest hdot =>
    obtain ⟨rfl, -⟩ := hdot
    exact absurd (h Byte.dot rfl) (by decide)
  | _ => rfl

theorem stopsAt_of_isBlank (htoken : s.shape.isToken) (h : ∀ c ∈ tail.head?, c.isBlank) :
    s.StopsAt tail := by
  have hshape : ¬ (s.shape = .comment ∨ s.shape = .unclosed) := by
    rintro (hshape | hshape) <;> rw [hshape] at htoken <;> cases htoken
  exact s.stopsAt_nil.of_head (absurd · hshape) (fun c hc => .inr (h c hc))
    fun _ => fraction_eq_nil_of_isBlank h

theorem segments_blanks_append {blanks : Bytes} (h : ∀ b ∈ blanks, b.isBlank) :
    (blanks ++ tail).segments = blanks.map (⟨.blank, [·]⟩) ++ tail.segments := by
  induction blanks with
  | nil => rfl
  | cons b blanks ih =>
    obtain ⟨hb, hblanks⟩ := List.forall_mem_cons.mp h
    have hfirst : Bytes.segments ([b] ++ (blanks ++ tail)) =
        ⟨.blank, [b]⟩ :: Bytes.segments (blanks ++ tail) :=
      segments_append (s := ⟨.blank, [b]⟩) (.spelled (.blank hb)) trivial
    rw [List.cons_append, List.map_cons, List.cons_append, ← ih hblanks]
    exact hfirst

/-- Joined with gaps, tokens are cut apart again, and only blanks stand between them. -/
theorem filter_segments_spaced {l : List Segment}
    (h : ∀ s ∈ l, s.Formed ∧ s.shape.isToken) (gap : Nat → Gap) :
    (Bytes.spaced gap (l.map (·.text))).segments.filter (·.shape ≠ .blank) = l := by
  induction l generalizing gap with
  | nil => simp [Bytes.spaced]
  | cons s l ih =>
    obtain ⟨⟨hs, htoken⟩, hl⟩ := List.forall_mem_cons.mp h
    have hshape : s.shape ≠ .blank := by
      intro hblank
      simp [hblank, Shape.isToken] at htoken
    cases l with
    | nil =>
      have hseg := segments_append hs s.stopsAt_nil
      rw [List.append_nil, Bytes.segments_nil] at hseg
      simp [Bytes.spaced, hseg, hshape]
    | cons t rest =>
      have hblanks := (gap 0).isBlank
      have hstop : ∀ c ∈ ((gap 0).blanks ++ Bytes.spaced (fun i => gap (i + 1))
          ((t :: rest).map (·.text))).head?, c.isBlank := by
        obtain ⟨b, more, hgap⟩ := List.exists_cons_of_ne_nil (gap 0).ne_nil
        rw [hgap] at hblanks ⊢
        simpa using hblanks b
      rw [List.map_cons, List.map_cons, Bytes.spaced, ← List.map_cons,
        segments_append hs (stopsAt_of_isBlank htoken hstop), segments_blanks_append hblanks,
        List.filter_cons_of_pos (by simpa using hshape), List.filter_append, ih hl]
      simp

/-! ## Tokens without their places -/

/-- The content of the token that a segment is. -/
def content? (s : Segment) : Option (Kind × Bytes × Option Literal) :=
  s.kind?.map fun kind => (kind, s.text, s.literal?)

/-- Leaving out segments that are no tokens leaves the contents as they are. -/
theorem filterMap_content?_filter {q : Segment → Bool} (h : ∀ s : Segment, s.shape.isToken → q s)
    (l : List Segment) : (l.filter q).filterMap content? = l.filterMap content? := by
  rw [List.filterMap_filter]
  refine List.filterMap_congr fun s _ => ?_
  split
  · rfl
  · next hq =>
    have htoken : s.shape.isToken = false := by
      rw [← Bool.not_eq_true]
      exact fun htoken => hq (h s htoken)
    rw [content?, kind?_eq_none htoken]
    rfl

end Segment

namespace Source

variable {s : Source}

/-- The segments of a source that are tokens. -/
def pieces (s : Source) : List Segment := s.text.segments.filter (·.shape.isToken)

theorem formed_and_isToken_of_mem_pieces : ∀ t ∈ s.pieces, t.Formed ∧ t.shape.isToken := by
  intro t ht
  obtain ⟨hmem, htoken⟩ := List.mem_filter.mp ht
  exact ⟨(Segment.chained_segments s.text).formed_of_mem t hmem, htoken⟩

/-- The lexemes of a scan are the texts of the pieces. -/
theorem map_lexeme_tokens (s : Source) :
    (s.tokens.filter (·.kind ≠ .eof)).map (·.lexeme) = s.pieces.map (·.text) := by
  have hpick : ∀ p : Placed, p.token?.map (·.lexeme) =
      if p.segment.shape.isToken then some p.segment.text else none := by
    intro p
    rw [Placed.token?, ← Segment.isSome_kind?]
    cases p.segment.kind? <;> rfl
  rw [filter_kind_tokens, map_filterMap_of_pick hpick, pieces, ← s.map_segment_placed,
    List.filter_map, List.map_map]
  rfl

theorem token?_content (p : Placed) : p.token?.map Token.content = p.segment.content? := by
  rw [Placed.token?, Option.map_map]
  rfl

/-- The contents of the tokens are those of the segments, whichever are left out that are no
tokens. -/
theorem map_content_tokens {q : Segment → Bool} (h : ∀ t : Segment, t.shape.isToken → q t) :
    (s.tokens.filter (·.kind ≠ .eof)).map Token.content =
      (s.text.segments.filter q).filterMap Segment.content? := by
  rw [filter_kind_tokens, Segment.filterMap_content?_filter h, ← s.map_segment_placed,
    List.filterMap_map, List.map_filterMap]
  exact congrArg (List.filterMap · s.placed) (funext token?_content)

theorem map_content_tokens_eq (s : Source) : s.tokens.map Token.content =
    (s.tokens.filter (·.kind ≠ .eof)).map Token.content ++ [(.eof, [], none)] := by
  rw [filter_kind_tokens, tokens_eq, List.map_append]
  rfl

/-- Where there are but blanks and tokens there is no fault. -/
theorem faults_eq_nil (h : ∀ t ∈ s.text.segments.filter (·.shape ≠ .blank), t.shape.isToken) :
    s.faults = [] := by
  refine List.filterMap_eq_nil_iff.mpr fun p hp => ?_
  by_cases hblank : p.segment.shape = .blank
  · exact Placed.fault?_eq_none (by rw [hblank]; rfl)
  · have htoken := h p.segment
      (List.mem_filter.mpr ⟨segment_mem_of_mem_placed hp, by simpa using hblank⟩)
    exact Placed.fault?_eq_none (Shape.isFault_eq_false_of_isToken htoken)

/-- Whatever the source, its lexemes joined with gaps are scanned to tokens of the same content
and to no diagnostic. -/
theorem scan_spaced (s : Source) (gap : Nat → Gap) (path : Bytes) (id : UInt32)
    (sink sink' : Sink) :
    let tokens := (s.scan sink).1.filter (·.kind ≠ .eof)
    let joined : Source := ⟨Bytes.spaced gap (tokens.map (·.lexeme)), path, id⟩
    (joined.scan sink').2 = sink' ∧
      (joined.scan sink').1.map Token.content = tokens.map Token.content ++ [(.eof, [], none)] := by
  intro tokens joined
  have htokens : tokens = s.tokens.filter (·.kind ≠ .eof) := by simp only [tokens, scan_eq]
  have hlexemes : tokens.map (·.lexeme) = s.pieces.map (·.text) := by
    rw [htokens, map_lexeme_tokens]
  have hjoined : joined.text.segments.filter (·.shape ≠ .blank) = s.pieces := by
    simp only [joined, hlexemes]
    exact Segment.filter_segments_spaced formed_and_isToken_of_mem_pieces gap
  constructor
  · have hfaults : joined.faults = [] := by
      refine faults_eq_nil fun t ht => ?_
      exact (formed_and_isToken_of_mem_pieces t (hjoined ▸ ht)).2
    simp [scan_eq, Sink.addFaults, hfaults]
  · have hblank : ∀ t : Segment, t.shape.isToken → decide (t.shape ≠ .blank) = true := by
      intro t htoken
      grind [Shape.isToken]
    calc (joined.scan sink').1.map Token.content
        = joined.tokens.map Token.content := by rw [scan_eq]
      _ = (joined.tokens.filter (·.kind ≠ .eof)).map Token.content ++ [(.eof, [], none)] :=
          joined.map_content_tokens_eq
      _ = s.pieces.filterMap Segment.content? ++ [(.eof, [], none)] := by
          rw [map_content_tokens hblank, hjoined]
      _ = tokens.map Token.content ++ [(.eof, [], none)] := by
          rw [pieces, ← map_content_tokens fun _ h => h, htokens]

end Source

end LoxLex
