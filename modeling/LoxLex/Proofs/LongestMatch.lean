import Mathlib.Data.List.Forall2
import LoxLex.Proofs.Chain
import LoxLex.Proofs.Placed

/-!
# Scanning by longest match

A scan is compared with a lexer that is given by its languages alone: it cuts off the longest
beginning of the text that any of them has, and where none has any it cuts off a fault.

## Main definitions

* `Longest` — the segments that no language could make longer.
* `Cut`, `Bytes.CutAt` — the texts cut into segments by longest match, and where these stand.
* `Segment.Means`, `Segment.Reported` — what tokens and diagnostics tell of segments.

## Main statements

* `cut_iff`: there is one way to cut a text by longest match, and it gives the segments.
* `Scanner.scan_longestMatch`: the tokens and diagnostics of a scanner are those of that cut.
-/

namespace LoxLex

/-! ## The lexer given by its languages -/

/-- The segment is spelled in its language, and no language has a longer beginning of the
text. -/
structure Longest (text : Bytes) (s : Segment) : Prop where
  spells : s.shape.Spells s.text
  isPrefix : s.text <+: text
  length_le : ∀ shape piece, Shape.Spells shape piece → piece <+: text →
    piece.length ≤ s.text.length

/-- No language has any beginning of the text. -/
def Unspelled (text : Bytes) : Prop :=
  ∀ shape piece, Shape.Spells shape piece → ¬ piece <+: text

/-- The segment that a text begins with. -/
inductive Cut.First : Bytes → Segment → Prop where
  | longest {text : Bytes} {s : Segment} (h : Longest text s) : First text s
  | unclosed {rest : Bytes} (h : Unspelled (Byte.quote :: rest)) :
      First (Byte.quote :: rest) ⟨.unclosed, Byte.quote :: rest⟩
  | lead {b : Byte} {run tail : Bytes} (h : Unspelled (b :: (run ++ tail))) (hb : 0xC0 ≤ b)
      (hrun : ∀ c ∈ run, 0x80 ≤ c ∧ c < 0xC0) (hstop : ∀ c ∈ tail.head?, ¬ (0x80 ≤ c ∧ c < 0xC0)) :
      First (b :: (run ++ tail)) ⟨.stray, b :: run⟩
  | lone {b : Byte} {tail : Bytes} (h : Unspelled (b :: tail)) (hquote : b ≠ Byte.quote)
      (hb : b < 0xC0) : First (b :: tail) ⟨.stray, [b]⟩

/-- The text cut from left to right until nothing is left of it. -/
inductive Cut : Bytes → List Segment → Prop where
  | nil : Cut [] []
  | cons {s : Segment} {tail : Bytes} {rest : List Segment} (hne : s.text ≠ [])
      (hs : Cut.First (s.text ++ tail) s) (hrest : Cut tail rest) :
      Cut (s.text ++ tail) (s :: rest)

/-- Cut by longest match, the text has the segment `s` at the offset `start`. -/
def Bytes.CutAt (text : Bytes) (start : Nat) (s : Segment) : Prop :=
  ∃ before behind, Cut text (before ++ s :: behind) ∧ (before.flatMap (·.text)).length = start

/-- The kind and the literal of the token that a segment is. -/
inductive Segment.Means : Segment → Kind → Option Literal → Prop where
  | symbol (s : Symbol) : Means ⟨.symbol s, s.spelling⟩ (.symbol s) none
  | keyword (k : Keyword) : Means ⟨.word, k.spelling⟩ (.keyword k) none
  | identifier {word : Bytes} (h : ∀ k : Keyword, k.spelling ≠ word) :
      Means ⟨.word, word⟩ .identifier none
  | number (text : Bytes) :
      Means ⟨.number, text⟩ .number (some (.number (Decimal.ofNumeral text).toBinary64))
  | string (body : Bytes) :
      Means ⟨.string, Byte.quote :: body ++ [Byte.quote]⟩ .string (some (.string body))

/-- The diagnostic, in the name of `origin`, of a segment that is a fault. -/
inductive Segment.Reported (origin : Bytes) : Segment → Diagnostic → Prop where
  | stray (text : Bytes) (span : Span) : Reported origin ⟨.stray, text⟩
      ⟨.error, some .unexpectedCharacter, origin, ascii "Unexpected character " ++ text, span⟩
  | unclosed (text : Bytes) (span : Span) : Reported origin ⟨.unclosed, text⟩
      ⟨.error, some .unterminatedString, origin, ascii "Unterminated String.", span⟩

/-! ## The first segment is the longest -/

namespace Segment

variable {b : Byte} {rest : Bytes}

theorem isPrefix_commentLine {body tail : Bytes} (h : Byte.newline ∉ body) :
    body <+: commentLine (body ++ tail) := by
  have hrun : ∀ c ∈ body, decide (c ≠ Byte.newline) = true := by grind
  exact (isPrefix_takeWhile hrun (List.prefix_append _ _)).trans (List.prefix_append _ _)

theorem length_le_first_of_spelling {s : Symbol} (h : s.spelling <+: b :: rest) :
    s.spelling.length ≤ (first b rest).text.length ∧ (first b rest).shape.isFault = false := by
  by_cases hslash : b = Byte.slash ∧ rest.head? = some Byte.slash
  · -- a comment, so the symbol is the slash alone
    obtain ⟨rfl, hrest⟩ := hslash
    obtain ⟨behind, rfl⟩ := List.head?_eq_some_iff.mp hrest
    obtain rfl := Symbol.eq_slash_of_isPrefix h
    exact ⟨length_text_first_pos _ _, rfl⟩
  · cases ht : Symbol.leading? (b :: rest) with
    | none =>
      have hnone := Symbol.leading?_eq_none_iff.mp ht
      rw [Symbol.opens_of_spelling_isPrefix h] at hnone
      cases hnone
    | some t =>
      rw [first_of_leading? ht hslash]
      exact ⟨(Symbol.spelling_isPrefix_of_leading? ht h).length_le, rfl⟩

/-- Whatever a text begins with in any language is no longer than the first segment, which is
then no fault. -/
theorem length_le_first_of_spells {shape : Shape} {piece : Bytes} (h : shape.Spells piece)
    (hpre : piece <+: b :: rest) :
    piece.length ≤ (first b rest).text.length ∧ (first b rest).shape.isFault = false := by
  obtain ⟨tail, heq⟩ := id hpre
  cases h with
  | blank hb =>
    cases heq
    rw [first_of_isBlank hb]
    exact ⟨le_rfl, rfl⟩
  | comment hbody =>
    simp only [List.cons_append] at heq
    cases heq
    rw [first_slash_slash]
    have hpre : _ <+: commentLine (_ ++ tail) := isPrefix_commentLine hbody
    exact ⟨by simpa using hpre.length_le, rfl⟩
  | commentLine hbody =>
    simp only [List.cons_append, List.append_assoc, List.nil_append] at heq
    cases heq
    rw [first_of_commentLine hbody]
    exact ⟨le_rfl, rfl⟩
  | symbol s => exact length_le_first_of_spelling hpre
  | word hb hrun =>
    rw [List.cons_append] at heq
    cases heq
    rw [first_of_isWordStart hb]
    have hpre := isPrefix_takeWhile hrun (List.prefix_append _ tail)
    exact ⟨by simpa using hpre.length_le, rfl⟩
  | whole hne hdigits =>
    rw [first_of_isDigit (isDigit_of_isPrefix hne hdigits hpre)]
    have hnumeral : piece <+: numeral (b :: rest) :=
      (isPrefix_takeWhile hdigits hpre).trans (List.prefix_append _ _)
    exact ⟨hnumeral.length_le, rfl⟩
  | fractional hne hdigits hne' hfraction =>
    rw [List.append_assoc, List.cons_append] at heq
    rw [first_of_digits hne hdigits (by simp) heq, fraction_dot_append hne' hfraction]
    refine ⟨?_, rfl⟩
    simp only [List.length_append, List.length_cons]
    omega
  | string hbody =>
    simp only [List.cons_append, List.append_assoc, List.nil_append] at heq
    cases heq
    rw [first_of_string hbody]
    exact ⟨le_rfl, rfl⟩

end Segment

/-! ## Segments that stop are cut off -/

section Stopped

variable {s : Segment} {tail : Bytes}

theorem length_le_of_stopsAt (h : s.Formed) (hstop : s.StopsAt tail) {shape : Shape}
    {piece : Bytes} (hpiece : shape.Spells piece) (hpre : piece <+: s.text ++ tail) :
    piece.length ≤ s.text.length ∧ s.shape.isFault = false := by
  obtain ⟨b, rest, heq⟩ :=
    List.exists_cons_of_ne_nil (List.append_ne_nil_of_left_ne_nil h.text_ne_nil tail)
  have hle := Segment.length_le_first_of_spells hpiece (heq ▸ hpre)
  rwa [Segment.first_of_formed h hstop heq] at hle

theorem longest_of_stopsAt (h : s.shape.Spells s.text) (hstop : s.StopsAt tail) :
    Longest (s.text ++ tail) s :=
  ⟨h, List.prefix_append _ _, fun _ _ hpiece hpre =>
    (length_le_of_stopsAt (.spelled h) hstop hpiece hpre).1⟩

theorem unspelled_of_stopsAt (h : s.Formed) (hstop : s.StopsAt tail)
    (hfault : s.shape.isFault) : Unspelled (s.text ++ tail) := by
  intro shape piece hpiece hpre
  rw [(length_le_of_stopsAt h hstop hpiece hpre).2] at hfault
  cases hfault

theorem cutFirst_of_stopsAt (h : s.Formed) (hstop : s.StopsAt tail) :
    Cut.First (s.text ++ tail) s := by
  have hfault := unspelled_of_stopsAt h hstop
  cases h with
  | spelled h => exact .longest (longest_of_stopsAt h hstop)
  | unclosed hbody =>
    obtain rfl : tail = [] := hstop
    rw [List.append_nil] at hfault ⊢
    exact .unclosed (hfault rfl)
  | @stray b run hb hlead hrun =>
    by_cases h : b.isLead
    · refine .lead (hfault rfl) (by simpa [Byte.isLead] using h) ?_ ?_
      · intro c hc
        simpa [Byte.isContinuation] using hrun c hc
      · intro c hc
        simpa [Byte.isContinuation] using hstop h c hc
    · obtain rfl : run = [] := by
        by_contra hne
        exact h (hlead hne)
      refine .lone (hfault rfl) ?_ (by simpa [Byte.isLead] using h)
      rintro rfl
      exact absurd hb (by decide)

end Stopped

/-! ## What is cut off stops -/

theorem Shape.Spells.shape_unique {shape shape' : Shape} {text : Bytes} (h : shape.Spells text)
    (h' : shape'.Spells text) : shape = shape' := by
  obtain ⟨b, rest, rfl⟩ := List.exists_cons_of_ne_nil h.ne_nil
  have heq := Segment.first_of_spells h (Segment.stopsAt_nil _) (List.append_nil _)
  rw [Segment.first_of_spells h' (Segment.stopsAt_nil _) (List.append_nil _)] at heq
  exact (congrArg Segment.shape heq).symm

namespace Unspelled

variable {b : Byte} {rest : Bytes}

theorem isForeign (h : Unspelled (b :: rest)) (hquote : b ≠ Byte.quote) : b.isForeign := by
  have hpre : [b] <+: b :: rest := List.cons_prefix_cons.mpr ⟨rfl, List.nil_prefix⟩
  have hblank : b.isBlank = false := by
    by_contra hb
    exact h _ _ (.blank (by simpa using hb)) hpre
  have hword : b.isWordStart = false := by
    by_contra hb
    have hpiece : Shape.word.Spells [b] := .word (by simpa using hb) (by simp)
    exact h _ _ hpiece hpre
  have hdigit : b.isDigit = false := by
    by_contra hb
    have hpiece : Shape.number.Spells [b] := .whole (by simp) (by simpa using hb)
    exact h _ _ hpiece hpre
  have hopens : Symbol.opens b = false := by
    by_contra hb
    obtain ⟨s, hs⟩ := Symbol.exists_spelling_eq_singleton (by simpa using hb)
    exact h _ _ (.symbol s) (hs ▸ hpre)
  simp [Byte.isForeign, hblank, hword, hdigit, hopens, hquote]

theorem quote_notMem (h : Unspelled (Byte.quote :: rest)) : Byte.quote ∉ rest := by
  intro hmem
  obtain ⟨body, behind, rfl, hbody⟩ := List.eq_append_cons_of_mem hmem
  exact h _ _ (.string hbody) ⟨behind, by simp⟩

end Unspelled

theorem Longest.eq_first {s : Segment} {b : Byte} {rest : Bytes} (h : Longest (b :: rest) s) :
    s = Segment.first b rest := by
  obtain ⟨hle, hfault⟩ := Segment.length_le_first_of_spells h.spells h.isPrefix
  have hspells := Segment.formed_first.spells hfault
  have hpre := Segment.text_first_isPrefix b rest
  have htext : s.text = (Segment.first b rest).text :=
    (List.prefix_of_prefix_length_le h.isPrefix hpre hle).eq_of_length_le
      (h.length_le _ _ hspells hpre)
  have hshape := h.spells.shape_unique (htext ▸ hspells)
  exact congrArg₂ Segment.mk hshape htext

theorem Cut.First.eq_first {s : Segment} {b : Byte} {rest : Bytes}
    (h : Cut.First (b :: rest) s) : s = Segment.first b rest := by
  cases h with
  | longest h => exact h.eq_first
  | unclosed h => exact (Segment.first_of_unclosed h.quote_notMem).symm
  | @lead _ run tail h hb hrun hstop =>
    have hlead : b.isLead := by simpa [Byte.isLead] using hb
    have hforeign : b.isForeign := h.isForeign (by rintro rfl; exact absurd hb (by decide))
    symm
    refine Segment.first_of_stray hforeign (fun _ => hlead) ?_ fun _ => ?_
    · intro c hc
      simpa [Byte.isContinuation] using hrun c hc
    · intro c hc
      simpa [Byte.isContinuation] using hstop c hc
  | lone h hquote hb =>
    have hlead : ¬ b.isLead := by simpa [Byte.isLead] using hb
    rw [Segment.first_of_isForeign (h.isForeign hquote), Segment.stray, if_neg hlead]

theorem Cut.First.formed_and_stopsAt {s : Segment} {tail : Bytes} (hne : s.text ≠ [])
    (h : Cut.First (s.text ++ tail) s) : s.Formed ∧ s.StopsAt tail := by
  obtain ⟨b, rest, heq⟩ := List.exists_cons_of_ne_nil (List.append_ne_nil_of_left_ne_nil hne tail)
  rw [heq] at h
  obtain rfl := h.eq_first
  exact ⟨Segment.formed_first, Segment.stopsAt_first heq⟩

/-- There is one way to cut a text by longest match, and it gives its segments. -/
theorem cut_iff {text : Bytes} {segments : List Segment} :
    Cut text segments ↔ segments = text.segments := by
  constructor
  · intro h
    induction h with
    | nil => exact Bytes.segments_nil.symm
    | cons hne hs hrest ih =>
      obtain ⟨hformed, hstop⟩ := hs.formed_and_stopsAt hne
      rw [Segment.segments_append hformed hstop, ih]
  · rintro rfl
    have hcut : ∀ {l}, Segment.Chained l → Cut (l.flatMap (·.text)) l := by
      intro l h
      induction h with
      | nil => exact .nil
      | cons hs hstop hrest ih => exact .cons hs.text_ne_nil (cutFirst_of_stopsAt hs hstop) ih
    simpa using hcut (Segment.chained_segments text)

example : (ascii "1.x<==//").segments.map (·.text) =
    [ascii "1", ascii ".", ascii "x", ascii "<=", ascii "=", ascii "//"] := by
  decide +kernel

/-- What is cut off at an offset is what is placed there. -/
theorem Source.cutAt_iff {s : Source} {start : Nat} {t : Segment} :
    s.text.CutAt start t ↔ ∃ p ∈ s.placed, p.segment = t ∧ p.span.start.offset = start := by
  have hoffset : ∀ before : List Segment,
      (Position.start.after (before.flatMap (·.text))).offset =
        (before.flatMap (·.text)).length := by
    simp [Position.start]
  constructor
  · rintro ⟨before, behind, hcut, rfl⟩
    rw [placed, ← cut_iff.mp hcut, Segment.place_append]
    exact ⟨_, List.mem_append_right _ List.mem_cons_self, rfl, hoffset before⟩
  · rintro ⟨p, hp, rfl, rfl⟩
    obtain ⟨before, behind, hsegments, hspan⟩ := Segment.exists_of_mem_place hp
    exact ⟨before, behind, cut_iff.mpr hsegments.symm, by rw [hspan, hoffset]⟩

/-! ## Tokens and diagnostics of the segments -/

theorem Segment.means_ofWord (word : Bytes) : Means ⟨.word, word⟩ (.ofWord word) none := by
  unfold Kind.ofWord
  split
  · next k hk =>
    obtain rfl := Keyword.ofSpelling?_eq_some_iff.mp hk
    exact .keyword k
  · next hnone =>
    refine .identifier fun k hk => ?_
    rw [Keyword.ofSpelling?_eq_some_iff.mpr hk] at hnone
    cases hnone

/-- A segment in a language is a token of some kind, if tokens have its shape. -/
theorem Shape.Spells.means {shape : Shape} {text : Bytes} (h : shape.Spells text)
    (htoken : shape.isToken) : ∃ kind, Segment.kind? ⟨shape, text⟩ = some kind ∧
      Segment.Means ⟨shape, text⟩ kind (Segment.literal? ⟨shape, text⟩) := by
  cases h with
  | symbol s => exact ⟨_, rfl, .symbol s⟩
  | word => exact ⟨_, rfl, Segment.means_ofWord _⟩
  | whole => exact ⟨_, rfl, .number _⟩
  | fractional => exact ⟨_, rfl, .number _⟩
  | @string body =>
    refine ⟨_, rfl, ?_⟩
    have hbody : ((Byte.quote :: body ++ [Byte.quote]).drop 1).dropLast = body := by simp
    rw [Segment.literal?, hbody]
    exact .string body
  | _ => cases htoken

/-- What is picked from the segments in their places answers, one for one, those that have
the property `p`. -/
theorem forall₂_place {α : Type} {R : Segment → α → Prop} {p : Segment → Bool}
    {f : Placed → Option α} {segments : List Segment}
    (hf : ∀ s ∈ segments, ∀ span, if p s then ∃ a ∈ f ⟨s, span⟩, R s a
      else f ⟨s, span⟩ = none) (file : UInt32) (start : Position) :
    List.Forall₂ R (segments.filter p) ((Segment.place file start segments).filterMap f) := by
  induction segments generalizing start with
  | nil => exact .nil
  | cons s rest ih =>
    have hs := hf s (by simp) ⟨start, start.after s.text, file⟩
    have hrest := ih (fun t ht => hf t (by simp [ht])) (start.after s.text)
    rw [Segment.place, List.filterMap_cons]
    by_cases hp : p s
    · rw [if_pos hp] at hs
      obtain ⟨a, ha, hR⟩ := hs
      rw [List.filter_cons_of_pos hp, show f _ = some a from ha]
      exact .cons hR hrest
    · rw [if_neg hp] at hs
      rw [List.filter_cons_of_neg hp, hs]
      exact hrest

namespace Segment

/-- What a token tells of the segment that it is. -/
def IsToken (s : Segment) (t : Token) : Prop := s.Means t.kind t.literal ∧ t.lexeme = s.text

theorem Formed.token? {s : Segment} (h : s.Formed) (span : Span) :
    if s.shape.isToken then ∃ t ∈ Placed.token? ⟨s, span⟩, s.IsToken t
      else Placed.token? ⟨s, span⟩ = none := by
  split
  · next htoken =>
    have hspells := h.spells (Shape.isFault_eq_false_of_isToken htoken)
    obtain ⟨kind, hkind, hmeans⟩ := hspells.means htoken
    refine ⟨⟨kind, s.text, s.literal?, span.stop.line, span⟩, ?_, hmeans, rfl⟩
    rw [Placed.token?, show s.kind? = some kind from hkind]
    rfl
  · next htoken =>
    rw [Placed.token?, kind?_eq_none (Bool.not_eq_true _ ▸ htoken)]
    rfl

theorem fault? (s : Segment) (origin : Bytes) (span : Span) :
    if s.shape.isFault then
      ∃ d ∈ (Placed.fault? ⟨s, span⟩).map (Fault.diagnostic origin), s.Reported origin d
    else (Placed.fault? ⟨s, span⟩).map (Fault.diagnostic origin) = none := by
  obtain ⟨shape, text⟩ := s
  cases shape with
  | stray => exact ⟨_, rfl, .stray text span⟩
  | unclosed => exact ⟨_, rfl, .unclosed text span.atEnd⟩
  | _ => rfl

end Segment

/-- A scanner reads its source by longest match, wherever its cursor stands: there is one way to
cut the text so, and the tokens, before one end-of-file token, and the diagnostics are those of its
segments. -/
theorem Scanner.scan_longestMatch (s : Scanner) :
    ∃ segments tokens reports, (∀ other, Cut s.cursor.source.text other ↔ other = segments) ∧
      segments.flatMap (·.text) = s.cursor.source.text ∧
      List.Forall₂ Segment.IsToken (segments.filter (·.shape.isToken)) tokens ∧
      List.Forall₂ (Segment.Reported s.sink.origin) (segments.filter (·.shape.isFault)) reports ∧
      ∃ eof : Token, eof.kind = .eof ∧ eof.lexeme = [] ∧ eof.literal = none ∧
        s.scan.1 = tokens ++ [eof] ∧
        s.scan.2.sink = { s.sink with entries := s.sink.entries ++ reports } := by
  have hformed := (Segment.chained_segments s.cursor.source.text).formed_of_mem
  have htokens := forall₂_place (fun t ht span => (hformed t ht).token? span)
    s.cursor.source.id .start
  have hreports := forall₂_place (f := fun p => p.fault?.map (Fault.diagnostic s.sink.origin))
    (fun t (_ : t ∈ s.cursor.source.text.segments) span => t.fault? s.sink.origin span)
    s.cursor.source.id .start
  refine ⟨s.cursor.source.text.segments, _, _, fun other => cut_iff,
    Bytes.flatMap_text_segments _, htokens, hreports, s.cursor.source.eof, rfl, rfl, rfl, ?_, ?_⟩
  · rw [scan_eq_placed]
    rfl
  · rw [scan_eq_placed, ← List.map_filterMap]
    rfl

end LoxLex
