import LoxLex.Proofs.Spelling

/-!
# Chains of segments

Where a segment ends is decided by at most two bytes behind it. So the segments of a text can
be told from the text without cutting it: they are well formed, each of them stops where the
next begins, and their texts make up the text.

## Main definitions

* `Segment.StopsAt` — whether what follows a segment leaves it as it is.
* `Segment.StopsLike` — whether one text stops what another stops.
* `Segment.Chained` — the lists of segments that texts are cut into.

## Main statements

* `Segment.chained_segments`: the segments of a text form a chain.
* `Segment.segments_flatMap_text`: a chain is what its joined text is cut into.
* `Segment.Chained.append_congr`: a chain can go on in another way that stops what the first
  stops.
-/

namespace LoxLex.Segment

/-- Whether the segment ends where `tail` begins, since `tail` does not go on with it. -/
def StopsAt (s : Segment) (tail : Bytes) : Prop :=
  match s.shape with
  | .blank | .string => True
  | .comment => s.text.getLast? = some Byte.newline ∨ tail = []
  | .symbol symbol => ∀ c ∈ tail.head?, symbol.takes c = false
  | .word => ∀ c ∈ tail.head?, c.isWordPart = false
  | .number => (∀ c ∈ tail.head?, c.isDigit = false) ∧ (Byte.dot ∈ s.text ∨ fraction tail = [])
  | .unclosed => tail = []
  | .stray => s.text.head?.any Byte.isLead → ∀ c ∈ tail.head?, c.isContinuation = false

theorem stopsAt_nil (s : Segment) : s.StopsAt [] := by
  unfold StopsAt
  split <;> simp [fraction]

theorem fraction_cons_eq_nil_iff {b : Byte} {rest : Bytes} :
    fraction (b :: rest) = [] ↔ ¬ (b = Byte.dot ∧ rest.head?.any Byte.isDigit) := by
  rw [fraction]
  split <;> simp_all

/-- What stops before a text stops before another one as well, if this begins with the same byte
or with a blank, begins no fraction that the first does not begin, and is empty where that is
needed. -/
theorem StopsAt.of_head {s : Segment} {tail other : Bytes} (h : s.StopsAt tail)
    (hnil : s.shape = .comment ∨ s.shape = .unclosed → tail = [] → other = [])
    (hhead : ∀ c ∈ other.head?, c ∈ tail.head? ∨ c.isBlank)
    (hfraction : fraction tail = [] → fraction other = []) : s.StopsAt other := by
  obtain ⟨shape, text⟩ := s
  cases shape with
  | blank => trivial
  | string => trivial
  | comment => exact h.imp_right (hnil (.inl rfl))
  | unclosed => exact hnil (.inr rfl) h
  | symbol symbol =>
    intro c hc
    exact (hhead c hc).elim (h c) Symbol.takes_eq_false_of_isBlank
  | word =>
    intro c hc
    exact (hhead c hc).elim (h c) Byte.isWordPart_eq_false_of_isBlank
  | number =>
    obtain ⟨hdigit, hdot⟩ := h
    refine ⟨fun c hc => ?_, hdot.imp_right hfraction⟩
    exact (hhead c hc).elim (hdigit c) Byte.isDigit_eq_false_of_isBlank
  | stray =>
    intro hlead c hc
    exact (hhead c hc).elim (h hlead c) Byte.isContinuation_eq_false_of_isBlank

/-! ## Texts that stop alike -/

/-- Whether what stops before the first text stops before the second as well, as far as the
beginnings of the two tell. -/
structure StopsLike (tail other : Bytes) : Prop where
  nil : tail = [] → other = []
  head : ∀ c ∈ other.head?, c ∈ tail.head? ∨ c.isBlank
  fraction : fraction tail = [] → fraction other = []

theorem StopsAt.of_stopsLike {s : Segment} {tail other : Bytes} (h : s.StopsAt tail)
    (hlike : StopsLike tail other) : s.StopsAt other :=
  h.of_head (fun _ => hlike.nil) hlike.head hlike.fraction

namespace StopsLike

variable {tail other : Bytes}

theorem refl (tail : Bytes) : StopsLike tail tail := ⟨fun h => h, fun _ => .inl, fun h => h⟩

/-- The first digit behind a dot is no blank, so a byte in front of both begins a fraction of
the one only if it does of the other. -/
theorem cons (h : StopsLike tail other) (b : Byte) : StopsLike (b :: tail) (b :: other) where
  nil := nofun
  head _ hc := .inl hc
  fraction hfraction := by
    rw [fraction_cons_eq_nil_iff] at hfraction ⊢
    rintro ⟨rfl, hdigit⟩
    obtain ⟨c, hc, hdigit⟩ := (Option.any_eq_true _ _).mp hdigit
    rcases h.head c hc with htail | hblank
    · exact hfraction ⟨rfl, (Option.any_eq_true _ _).mpr ⟨c, htail, hdigit⟩⟩
    · rw [Byte.isDigit_eq_false_of_isBlank hblank] at hdigit
      cases hdigit

theorem append (h : StopsLike tail other) (before : Bytes) :
    StopsLike (before ++ tail) (before ++ other) := by
  induction before with
  | nil => exact h
  | cons b before ih => exact ih.cons b

/-- A blank stops no less than any byte in its place. -/
theorem cons_of_isBlank {b c : Byte} (hc : c.isBlank) : StopsLike (b :: tail) (c :: other) where
  nil := nofun
  head _ hhead := .inr (Option.mem_some.mp hhead ▸ hc)
  fraction _ := by
    rw [fraction_cons_eq_nil_iff]
    rintro ⟨rfl, -⟩
    cases hc

/-- Behind a first byte that is no dot nothing counts. -/
theorem cons_of_ne_dot {b : Byte} (hb : b ≠ Byte.dot) : StopsLike (b :: tail) (b :: other) where
  nil := nofun
  head _ hc := .inl hc
  fraction _ := fraction_cons_eq_nil_iff.mpr fun hdot => hb hdot.1

/-- What stands behind a text counts for no more than a digit that makes a fraction of a dot. -/
theorem append_right (hne : tail ≠ []) (hdigit : ∀ c ∈ other.head?, c.isDigit = false) :
    StopsLike tail (tail ++ other) where
  nil hnil := absurd hnil hne
  head c hc := by
    obtain ⟨b, rest, rfl⟩ := List.exists_cons_of_ne_nil hne
    exact .inl hc
  fraction hfraction := by
    match tail with
    | [] => exact absurd rfl hne
    | [b] =>
      refine fraction_cons_eq_nil_iff.mpr fun hdot => ?_
      obtain ⟨c, hc, hdot⟩ := (Option.any_eq_true _ _).mp hdot.2
      rw [hdigit c hc] at hdot
      cases hdot
    | b :: c :: rest => simpa [fraction_cons_eq_nil_iff] using hfraction

end StopsLike

/-! ## The first segment stops -/

section First

variable {b : Byte} {rest tail : Bytes}

theorem fraction_stop {text : Bytes} (hstop : ∀ c ∈ text.head?, c.isDigit = false)
    (h : fraction text ++ tail = text) : (∀ c ∈ tail.head?, c.isDigit = false) ∧
      (Byte.dot ∈ fraction text ∨ fraction tail = []) := by
  fun_cases fraction text with
  | case1 =>
    obtain rfl : tail = [] := h
    simp [fraction]
  | case2 c behind hdot =>
    rw [fraction, if_pos hdot] at h
    have htail := eq_dropWhile_of_append_eq (List.cons.inj h).2
    exact ⟨htail ▸ head?_dropWhile_stop, .inl (by simp [hdot.1])⟩
  | case3 c behind hdot =>
    have hnil : fraction (c :: behind) = [] := if_neg hdot
    rw [hnil, List.nil_append] at h
    exact h ▸ ⟨hstop, .inr hnil⟩

theorem stopsAt_numeral (h : numeral (b :: rest) ++ tail = b :: rest) :
    StopsAt ⟨.number, numeral (b :: rest)⟩ tail := by
  rw [numeral, List.append_assoc] at h
  obtain ⟨hdigit, hdot⟩ := fraction_stop head?_dropWhile_stop (eq_dropWhile_of_append_eq h)
  exact ⟨hdigit, hdot.imp_left (List.mem_append_right _)⟩

theorem stopsAt_symbol {s : Symbol} (hs : Symbol.leading? (b :: rest) = some s)
    (hslash : ¬ (b = Byte.slash ∧ rest.head? = some Byte.slash))
    (h : s.spelling ++ tail = b :: rest) : StopsAt ⟨.symbol s, s.spelling⟩ tail := by
  intro c hc
  obtain ⟨behind, rfl⟩ := List.head?_eq_some_iff.mp hc
  rw [← Bool.not_eq_true]
  intro htakes
  rcases Symbol.exists_spelling_eq_of_takes htakes with ⟨rfl, rfl⟩ | ⟨t, ht⟩
  · cases h
    exact hslash ⟨rfl, rfl⟩
  · have hpre : t.spelling <+: b :: rest := ⟨behind, by rw [ht, ← h, List.append_assoc]; rfl⟩
    have := (Symbol.spelling_isPrefix_of_leading? hs hpre).length_le
    rw [ht, List.length_append, List.length_singleton] at this
    omega

theorem stopsAt_quoted (h : (quoted rest).text ++ tail = Byte.quote :: rest) :
    (quoted rest).StopsAt tail := by
  by_cases hquote : Byte.quote ∈ rest
  · rw [quoted, if_pos hquote]
    trivial
  · rw [quoted, if_neg hquote] at h ⊢
    simpa [StopsAt] using h

theorem stopsAt_stray (h : (stray b rest).text ++ tail = b :: rest) :
    (stray b rest).StopsAt tail := by
  intro hlead
  have hb : b.isLead := by simpa [stray] using hlead
  have hrest : rest.takeWhile Byte.isContinuation ++ tail = rest := by simpa [stray, hb] using h
  exact eq_dropWhile_of_append_eq hrest ▸ head?_dropWhile_stop

theorem stopsAt_commentLine (h : commentLine (b :: rest) ++ tail = b :: rest) :
    StopsAt ⟨.comment, commentLine (b :: rest)⟩ tail := by
  by_cases hmem : Byte.newline ∈ b :: rest
  · obtain ⟨body, behind, heq, hbody⟩ := List.eq_append_cons_of_mem hmem
    refine .inl ?_
    rw [heq, commentLine_append_newline hbody, List.getLast?_concat]
  · refine .inr ?_
    rwa [commentLine_of_notMem hmem, List.append_right_eq_self] at h

theorem stopsAt_first (h : (first b rest).text ++ tail = b :: rest) :
    (first b rest).StopsAt tail := by
  revert h
  fun_cases first b rest with
  | case1 => exact fun _ => trivial
  | case2 =>
    intro h
    exact eq_dropWhile_of_append_eq (List.cons.inj h).2 ▸ head?_dropWhile_stop
  | case3 => exact stopsAt_numeral
  | case4 _ _ _ hquote => exact fun h => stopsAt_quoted (hquote ▸ h)
  | case5 => exact stopsAt_commentLine
  | case6 _ _ _ _ hslash s hs => exact stopsAt_symbol hs hslash
  | case7 => exact stopsAt_stray

end First

/-! ## A segment that stops comes first -/

section Stopped

variable {b : Byte} {rest tail : Bytes}

theorem fraction_dot_append {digits : Bytes} (hne : digits ≠ [])
    (hdigits : ∀ c ∈ digits, c.isDigit) : fraction (Byte.dot :: (digits ++ tail)) =
      Byte.dot :: (digits ++ tail.takeWhile Byte.isDigit) := by
  have hhead : (digits ++ tail).head?.any Byte.isDigit := by
    obtain ⟨d, ds, rfl⟩ := List.exists_cons_of_ne_nil hne
    simpa using hdigits d
  rw [fraction, if_pos ⟨rfl, hhead⟩, List.takeWhile_append_of_pos hdigits]

theorem isDigit_of_isPrefix {digits : Bytes} (hne : digits ≠ [])
    (hdigits : ∀ c ∈ digits, c.isDigit) (h : digits <+: b :: rest) : b.isDigit := by
  have hb : digits.head hne = b := h.head hne
  exact hb ▸ hdigits _ (List.head_mem hne)

theorem first_of_digits {digits : Bytes} (hne : digits ≠ []) (hdigits : ∀ c ∈ digits, c.isDigit)
    (hstop : ∀ c ∈ tail.head?, c.isDigit = false) (heq : digits ++ tail = b :: rest) :
    first b rest = ⟨.number, digits ++ fraction tail⟩ := by
  rw [first_of_isDigit (isDigit_of_isPrefix hne hdigits ⟨tail, heq⟩), ← heq, numeral,
    takeWhile_append_stop hdigits hstop, dropWhile_append_stop hdigits hstop]

theorem first_of_word {run : Bytes} (hb : b.isWordStart) (hrun : ∀ c ∈ run, c.isWordPart)
    (hstop : StopsAt ⟨.word, b :: run⟩ tail) : first b (run ++ tail) = ⟨.word, b :: run⟩ := by
  rw [first_of_isWordStart hb, takeWhile_append_stop hrun hstop]

theorem first_of_comment {body : Bytes} (hbody : Byte.newline ∉ body)
    (hstop : StopsAt ⟨.comment, Byte.slash :: Byte.slash :: body⟩ tail) :
    first Byte.slash (Byte.slash :: (body ++ tail)) =
      ⟨.comment, Byte.slash :: Byte.slash :: body⟩ := by
  have hlast : (Byte.slash :: Byte.slash :: body).getLast? ≠ some Byte.newline := by
    intro h
    have := List.mem_of_getLast? h
    simp [hbody, show Byte.newline ≠ Byte.slash by decide] at this
  obtain rfl : tail = [] := hstop.resolve_left hlast
  rw [first_slash_slash, List.append_nil, commentLine_of_notMem hbody]

theorem first_of_commentLine {body : Bytes} (hbody : Byte.newline ∉ body) :
    first Byte.slash (Byte.slash :: (body ++ Byte.newline :: tail)) =
      ⟨.comment, Byte.slash :: Byte.slash :: body ++ [Byte.newline]⟩ := by
  rw [first_slash_slash, commentLine_append_newline hbody]
  rfl

theorem first_of_symbol {s : Symbol} (hstop : StopsAt ⟨.symbol s, s.spelling⟩ tail)
    (heq : s.spelling ++ tail = b :: rest) : first b rest = ⟨.symbol s, s.spelling⟩ := by
  have hs : Symbol.leading? (b :: rest) = some s := heq ▸ Symbol.leading?_spelling_append hstop
  refine first_of_leading? hs ?_
  rintro ⟨rfl, hrest⟩
  obtain rfl := Symbol.eq_slash_of_isPrefix ⟨tail, heq⟩
  obtain rfl : tail = rest := (List.cons.inj heq).2
  exact absurd (hstop Byte.slash hrest) (by decide)

theorem first_of_string {body : Bytes} (hbody : Byte.quote ∉ body) :
    first Byte.quote (body ++ Byte.quote :: tail) =
      ⟨.string, Byte.quote :: body ++ [Byte.quote]⟩ := by
  rw [first_quote, quoted, if_pos (by simp), takeWhile_ne_quote hbody]

theorem first_of_unclosed {body : Bytes} (hbody : Byte.quote ∉ body) :
    first Byte.quote body = ⟨.unclosed, Byte.quote :: body⟩ := by
  rw [first_quote, quoted, if_neg hbody]

theorem first_of_stray {run : Bytes} (hb : b.isForeign) (hlead : run ≠ [] → b.isLead)
    (hrun : ∀ c ∈ run, c.isContinuation) (hstop : StopsAt ⟨.stray, b :: run⟩ tail) :
    first b (run ++ tail) = ⟨.stray, b :: run⟩ := by
  rw [first_of_isForeign hb, stray]
  by_cases h : b.isLead
  · rw [if_pos h, takeWhile_append_stop hrun (hstop h)]
  · obtain rfl : run = [] := by
      by_contra hne
      exact h (hlead hne)
    rw [if_neg h]

theorem first_of_spells {shape : Shape} {text : Bytes} (h : shape.Spells text)
    (hstop : StopsAt ⟨shape, text⟩ tail) (heq : text ++ tail = b :: rest) :
    first b rest = ⟨shape, text⟩ := by
  cases h with
  | blank hb =>
    obtain ⟨rfl, rfl⟩ := List.cons.inj heq
    exact first_of_isBlank hb
  | comment hbody =>
    obtain ⟨rfl, rfl⟩ := List.cons.inj heq
    exact first_of_comment hbody hstop
  | commentLine hbody =>
    obtain ⟨rfl, rfl⟩ := List.cons.inj heq
    simpa using first_of_commentLine hbody
  | symbol s => exact first_of_symbol hstop heq
  | word hb hrun =>
    obtain ⟨rfl, rfl⟩ := List.cons.inj heq
    exact first_of_word hb hrun hstop
  | whole hne hdigits =>
    obtain ⟨hdigit, hdot⟩ := hstop
    have hnodot : Byte.dot ∉ text := fun h => by simpa using hdigits _ h
    rw [first_of_digits hne hdigits hdigit heq, hdot.resolve_left hnodot, List.append_nil]
  | fractional hne hdigits hne' hfraction =>
    rw [List.append_assoc, List.cons_append] at heq
    rw [first_of_digits hne hdigits (by simp) heq,
      fraction_dot_append hne' hfraction, takeWhile_stop hstop.1, List.append_nil]
  | string hbody =>
    obtain ⟨rfl, rfl⟩ := List.cons.inj heq
    simpa using first_of_string hbody

/-- The first segment of a text is told by its spelling and by what follows it. -/
theorem first_of_formed {s : Segment} (h : s.Formed) (hstop : s.StopsAt tail)
    (heq : s.text ++ tail = b :: rest) : first b rest = s := by
  cases h with
  | spelled h => exact first_of_spells h hstop heq
  | unclosed hbody =>
    obtain rfl : tail = [] := hstop
    obtain ⟨rfl, rfl⟩ := List.cons.inj heq
    simpa using first_of_unclosed hbody
  | stray hb hlead hrun =>
    obtain ⟨rfl, rfl⟩ := List.cons.inj heq
    exact first_of_stray hb hlead hrun hstop

end Stopped

theorem segments_append {s : Segment} {tail : Bytes} (h : s.Formed) (hstop : s.StopsAt tail) :
    (s.text ++ tail).segments = s :: tail.segments := by
  obtain ⟨b, rest, heq⟩ := List.exists_cons_of_ne_nil h.text_ne_nil
  have hfirst : first b (rest ++ tail) = s :=
    first_of_formed h hstop (by rw [heq, List.cons_append])
  rw [heq, List.cons_append, Bytes.segments_cons, hfirst, ← List.cons_append, ← heq,
    List.drop_left]

/-! ## Chains -/

/-- Segments that are well formed and each of which stops where the next begins. -/
inductive Chained : List Segment → Prop where
  | nil : Chained []
  | cons {s : Segment} {rest : List Segment} (hs : s.Formed)
      (hstop : s.StopsAt (rest.flatMap (·.text))) (hrest : Chained rest) : Chained (s :: rest)

/-- A chain is what its joined text is cut into. -/
theorem segments_flatMap_text {segments : List Segment} (h : Chained segments) :
    Bytes.segments (segments.flatMap (·.text)) = segments := by
  induction h with
  | nil => exact Bytes.segments_nil
  | cons hs hstop hrest ih => rw [List.flatMap_cons, segments_append hs hstop, ih]

/-- The segments of a text form a chain. -/
theorem chained_segments (text : Bytes) : Chained text.segments := by
  fun_induction Bytes.segments text with
  | case1 => exact .nil
  | case2 b rest s ih =>
    refine .cons formed_first ?_ ih
    rw [Bytes.flatMap_text_segments]
    exact stopsAt_first (text_first_append_drop b rest)

theorem Chained.of_append {before behind : List Segment} (h : Chained (before ++ behind)) :
    Chained behind := by
  induction before with
  | nil => exact h
  | cons s before ih =>
    cases h with
    | cons hs hstop hrest => exact ih hrest

/-- A chain can go on in another way, if this stops what stands before. -/
theorem Chained.append_congr {before behind other : List Segment}
    (h : Chained (before ++ behind)) (hother : Chained other)
    (hlike : StopsLike (behind.flatMap (·.text)) (other.flatMap (·.text))) :
    Chained (before ++ other) := by
  induction before with
  | nil => exact hother
  | cons s before ih =>
    cases h with
    | cons hs hstop hrest =>
      have hlike := hlike.append (before.flatMap (·.text))
      rw [← List.flatMap_append, ← List.flatMap_append] at hlike
      exact .cons hs (hstop.of_stopsLike hlike) (ih hrest)

/-- A chain goes on with any segment before which its last one stops. A segment that begins with a
digit could still make a fraction of the end of the chain. -/
theorem Chained.concat {l : List Segment} {t : Segment} (h : Chained l) (ht : t.Formed)
    (hlast : ∀ s ∈ l.getLast?, s.StopsAt t.text)
    (hdigit : ∀ c ∈ t.text.head?, c.isDigit = false) : Chained (l ++ [t]) := by
  induction h with
  | nil => exact .cons ht t.stopsAt_nil .nil
  | @cons s rest hs hstop hrest ih =>
    cases hrest with
    | nil => exact .cons hs (by simpa using hlast s rfl) (.cons ht t.stopsAt_nil .nil)
    | @cons u rest hu hstop' hrest =>
      rw [List.getLast?_cons_cons] at hlast
      rw [List.cons_append]
      refine .cons hs (hstop.of_stopsLike ?_) (ih hlast)
      rw [List.flatMap_append, List.flatMap_singleton]
      exact .append_right (by simp [hu.text_ne_nil]) hdigit

theorem Chained.formed_of_mem {segments : List Segment} (h : Chained segments) :
    ∀ s ∈ segments, s.Formed := by
  induction h with
  | nil => simp
  | cons hs hstop hrest ih => exact List.forall_mem_cons.mpr ⟨hs, ih⟩

/-- What follows a text can make its last segment longer, and leaves those before it alone: they
could only notice the digits behind a dot. -/
theorem segments_append_of_last {text more : Bytes} {init : List Segment} {s t : Segment}
    (h : text.segments = init ++ [s]) (ht : t.Formed) (htext : t.text = s.text ++ more)
    (hdot : s.text.head? ≠ some Byte.dot) : Bytes.segments (text ++ more) = init ++ [t] := by
  have hchain := h ▸ chained_segments text
  have hlike : StopsLike (s.text ++ []) (s.text ++ more) := by
    have hs := (hchain.formed_of_mem s (by simp)).text_ne_nil
    obtain ⟨b, rest, hs⟩ := List.exists_cons_of_ne_nil hs
    rw [hs] at hdot ⊢
    exact .cons_of_ne_dot fun hb => hdot (by rw [hb]; rfl)
  have hchain' : Chained (init ++ [t]) :=
    hchain.append_congr (.cons ht t.stopsAt_nil .nil) (by simpa [htext] using hlike)
  have hjoin : text ++ more = (init ++ [t]).flatMap (·.text) := by
    rw [← text.flatMap_text_segments, h]
    simp [htext]
  rw [hjoin, segments_flatMap_text hchain']

end LoxLex.Segment
