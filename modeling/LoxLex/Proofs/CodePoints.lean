import LoxLex.Proofs.LongestMatch
import LoxLex.Proofs.Places
import LoxLex.Proofs.Utf8

/-!
# Scans of UTF-8

The scan of a text in UTF-8 cuts it between code points only, though it reads byte by byte: the
segments of the language end in ASCII, and a stray lead byte takes its continuation bytes along.
So what is unexpected are code points, each reported by itself.

## Main definitions

* `Bytes.LiesIn` — whether a byte is cut off in a segment of certain shapes.
* `Source.IsOutside` — whether a code point belongs to nothing that a scan knows.
* `Source.ScannedByChar` — what holds of a scan of code points.

## Main statements

* `Segment.Formed.exists_ofChars`: a segment of code points is made of whole ones.
* `Source.scan_scannedByChar`: scans of UTF-8 keep code points whole.
-/

namespace LoxLex

/-! ## Segments of code points -/

/-- What is spelled in a language ends in ASCII, comments apart that end with the text. -/
theorem Shape.Spells.exists_getLast?_lt {shape : Shape} {text : Bytes} (h : shape.Spells text)
    (hcomment : shape = .comment → text.getLast? = some Byte.newline) :
    ∃ b, text.getLast? = some b ∧ b.toNat < 128 := by
  by_cases hsolid : shape.isSolid
  · have hlast := List.getLast?_eq_some_getLast h.ne_nil
    have := h.isVisible hsolid _ (List.mem_of_getLast? hlast)
    exact ⟨_, hlast, by omega⟩
  · cases h with
    | @blank b hb =>
      have := Byte.isBlank_iff.mp hb
      exact ⟨b, rfl, by omega⟩
    | comment => exact ⟨_, hcomment rfl, by decide⟩
    | commentLine => exact ⟨_, hcomment rfl, by decide⟩
    | string => exact ⟨Byte.quote, List.getLast?_concat, by decide⟩
    | _ => exact absurd rfl hsolid

namespace Segment

variable {s : Segment} {tail : Bytes} {chars : List Char}

/-- What is not stray ends in ASCII, unless it ends with the text. -/
theorem Formed.exists_getLast?_lt (h : s.Formed) (hstop : s.StopsAt tail) (htail : tail ≠ [])
    (hshape : s.shape ≠ .stray) : ∃ b, s.text.getLast? = some b ∧ b.toNat < 128 := by
  cases h with
  | spelled h =>
    refine h.exists_getLast?_lt fun hcomment => ?_
    rw [StopsAt, hcomment] at hstop
    exact hstop.resolve_right htail
  | unclosed => exact absurd hstop htail
  | stray => exact absurd rfl hshape

/-- What is stray in a text of code points is one of them. -/
theorem Formed.exists_char (h : s.Formed) (hstop : s.StopsAt tail) (hshape : s.shape = .stray)
    (htext : s.text ++ tail = Bytes.ofChars chars) :
    ∃ c behind, chars = c :: behind ∧ s.text = String.utf8EncodeChar c ∧
      tail = Bytes.ofChars behind := by
  cases h with
  | spelled h =>
    rw [hshape] at h
    cases h
  | unclosed => cases hshape
  | @stray b run hb hlead hrun =>
    cases chars with
    | nil => cases htext
    | cons c behind =>
      obtain ⟨d, more, heq, hd⟩ := Bytes.exists_utf8EncodeChar_eq c
      rw [Bytes.ofChars_cons, heq, List.cons_append, List.cons_append, List.cons.injEq] at htext
      obtain ⟨rfl, htext⟩ := htext
      rcases hd with ⟨hascii, rfl⟩ | ⟨hdlead, hmore⟩
      · -- an ASCII byte stands alone
        obtain rfl : run = [] := by
          by_contra hne
          have := Byte.isLead_iff.mp (hlead hne)
          omega
        exact ⟨c, behind, rfl, heq.symm, htext⟩
      · -- both runs go on as far as there are continuation bytes
        have hrun' := takeWhile_append_stop hrun (hstop hdlead)
        have htail := dropWhile_append_stop hrun (hstop hdlead)
        rw [htext, takeWhile_append_stop hmore Bytes.head?_ofChars] at hrun'
        rw [htext, dropWhile_append_stop hmore Bytes.head?_ofChars] at htail
        exact ⟨c, behind, rfl, by rw [heq, hrun'], htail.symm⟩

/-- A segment of a text of code points is made of whole ones. -/
theorem Formed.exists_ofChars (h : s.Formed) (hstop : s.StopsAt tail)
    (htext : s.text ++ tail = Bytes.ofChars chars) :
    ∃ before behind, chars = before ++ behind ∧ s.text = Bytes.ofChars before ∧
      tail = Bytes.ofChars behind ∧ (s.shape = .stray → ∃ c, before = [c]) := by
  by_cases hshape : s.shape = .stray
  · obtain ⟨c, behind, rfl, hc, htail⟩ := h.exists_char hstop hshape htext
    exact ⟨[c], behind, rfl, by simp [hc], htail, fun _ => ⟨c, rfl⟩⟩
  · have hsplit : ∃ before behind, chars = before ++ behind ∧ s.text = Bytes.ofChars before ∧
        tail = Bytes.ofChars behind := by
      by_cases htail : tail = []
      · exact ⟨chars, [], by simp, by simpa [htail] using htext, htail⟩
      · obtain ⟨b, hlast, hb⟩ := h.exists_getLast?_lt hstop htail hshape
        exact Bytes.exists_ofChars_of_getLast? htext hlast hb
    obtain ⟨before, behind, heq, hbefore, hbehind⟩ := hsplit
    exact ⟨before, behind, heq, hbefore, hbehind, fun hstray => absurd hstray hshape⟩

/-- A text of code points is cut between code points. -/
theorem Chained.exists_ofChars {before rest : List Segment} (h : Chained (before ++ rest))
    (htext : (before ++ rest).flatMap (·.text) = Bytes.ofChars chars) :
    ∃ first behind, chars = first ++ behind ∧ before.flatMap (·.text) = Bytes.ofChars first ∧
      rest.flatMap (·.text) = Bytes.ofChars behind := by
  induction before generalizing chars with
  | nil => exact ⟨[], chars, rfl, rfl, htext⟩
  | cons s before ih =>
    cases h with
    | cons hs hstop hrest =>
      obtain ⟨here, more, rfl, hhere, hmore, -⟩ := hs.exists_ofChars hstop htext
      obtain ⟨first, behind, rfl, hfirst, hbehind⟩ := ih hrest hmore
      refine ⟨here ++ first, behind, (List.append_assoc ..).symm, ?_, hbehind⟩
      rw [List.flatMap_cons, hhere, hfirst, Bytes.ofChars_append]

/-- Of code points in their places, those in stray segments are told apart from the others by
whatever tells their segments apart. -/
theorem Chained.filter_charOffsets {l : List Segment} (h : Chained l) {file : UInt32}
    {start : Position} {q : Nat × Char → Bool}
    (htext : l.flatMap (·.text) = Bytes.ofChars chars)
    (hq : ∀ p ∈ place file start l, ∀ a : Nat × Char, p.span.start.offset ≤ a.1 →
      a.1 + a.2.utf8Size ≤ p.span.stop.offset → q a = decide (p.segment.shape = .stray)) :
    ((place file start l).filter (·.segment.shape = .stray)).map
        (fun p => (p.span.start.offset, p.span.stop.offset, p.segment.text)) =
      ((Bytes.charOffsets start.offset chars).filter q).map
        fun a => (a.1, a.1 + a.2.utf8Size, String.utf8EncodeChar a.2) := by
  induction h generalizing start chars with
  | nil =>
    obtain rfl := Bytes.eq_nil_of_ofChars_eq_nil htext.symm
    rfl
  | @cons s rest hs hstop hrest ih =>
    obtain ⟨here, behind, rfl, hhere, hbehind, hstray⟩ := hs.exists_ofChars hstop htext
    rw [place, List.forall_mem_cons] at hq
    have hlength : (start.after s.text).offset = start.offset + (Bytes.ofChars here).length := by
      rw [Position.offset_after, hhere]
    have hfirst : ∀ a ∈ Bytes.charOffsets start.offset here,
        q a = decide (s.shape = .stray) := by
      intro a ha
      have hbounds := Bytes.bounds_of_mem_charOffsets ha
      exact hq.1 a hbounds.1 (hlength ▸ hbounds.2)
    have hmore := ih hbehind hq.2
    rw [Bytes.charOffsets_append, List.filter_append, List.map_append, place, ← hlength, ← hmore]
    by_cases hshape : s.shape = .stray
    · obtain ⟨c, rfl⟩ := hstray hshape
      have hc : s.text = String.utf8EncodeChar c := by simpa using hhere
      simp only [Bytes.charOffsets, List.forall_mem_singleton, hshape, decide_true] at hfirst
      rw [List.filter_cons_of_pos (by simpa using hshape), Bytes.charOffsets, Bytes.charOffsets,
        List.filter_cons_of_pos hfirst, List.filter_nil, List.map_cons, List.map_singleton,
        Position.offset_after, hc, String.length_utf8EncodeChar]
      rfl
    · have hnone : (Bytes.charOffsets start.offset here).filter q = [] :=
        List.filter_eq_nil_iff.mpr fun a ha => by simp [hfirst a ha, hshape]
      rw [List.filter_cons_of_neg (by simpa using hshape), hnone]
      rfl

end Segment

/-! ## Placed code points -/

/-- Cut by longest match, the text has the byte with the index `i` in a segment of one of these
shapes. -/
def Bytes.LiesIn (text : Bytes) (shapes : List Shape) (i : Nat) : Prop :=
  ∃ start s, text.CutAt start s ∧ s.shape ∈ shapes ∧ start ≤ i ∧ i < start + s.text.length

namespace Source

variable {s : Source} {p : Placed} {chars : List Char}

theorem exists_chars_of_mem_placed (hs : s.text = Bytes.ofChars chars) (h : p ∈ s.placed) :
    ∃ before here behind, s.text = Bytes.ofChars (before ++ here ++ behind) ∧
      p.segment.text = Bytes.ofChars here ∧ p.span.start.offset = (Bytes.ofChars before).length ∧
      p.span.stop.offset = (Bytes.ofChars (before ++ here)).length := by
  obtain ⟨before, behind, hsegments, hspan⟩ := Segment.exists_of_mem_place h
  have hchain := hsegments ▸ Segment.chained_segments s.text
  have htext : (before ++ p.segment :: behind).flatMap (·.text) = Bytes.ofChars chars := by
    rw [← hsegments, Bytes.flatMap_text_segments, hs]
  obtain ⟨first, more, rfl, hfirst, hmore⟩ := hchain.exists_ofChars htext
  cases hchain.of_append with
  | cons hformed hstop hrest =>
    obtain ⟨here, last, rfl, hhere, hlast, -⟩ := hformed.exists_ofChars hstop hmore
    refine ⟨first, here, last, by rw [hs, List.append_assoc], hhere, ?_, ?_⟩
    · simp [hspan, hfirst, Position.start]
    · simp [hspan, hfirst, hhere, Position.start]

theorem isBoundary_of_mem_placed (hs : s.text = Bytes.ofChars chars) (h : p ∈ s.placed) :
    s.text.IsBoundary p.span.start.offset ∧ s.text.IsBoundary p.span.stop.offset := by
  obtain ⟨before, here, behind, htext, -, hstart, hstop⟩ := exists_chars_of_mem_placed hs h
  exact ⟨⟨before, here ++ behind, by simp [htext], hstart⟩,
    ⟨before ++ here, behind, by simp [htext], hstop⟩⟩

theorem isUtf8_text_of_mem_placed (hs : s.text = Bytes.ofChars chars) (h : p ∈ s.placed) :
    p.segment.text.IsUtf8 := by
  obtain ⟨-, here, -, -, hhere, -⟩ := exists_chars_of_mem_placed hs h
  exact ⟨here, hhere⟩

/-- The quotes of a string are code points, so what stands between them is valid as well. -/
theorem isUtf8_of_literal?_eq_string (hs : s.text = Bytes.ofChars chars) (h : p ∈ s.placed)
    {text : Bytes} (hliteral : p.segment.literal? = some (.string text)) : text.IsUtf8 := by
  obtain ⟨here, hhere⟩ := isUtf8_text_of_mem_placed hs h
  have hformed := formed_of_mem_placed h
  have hshape : p.segment.shape = .string := by
    unfold Segment.literal? at hliteral
    split at hliteral <;> simp_all
  obtain ⟨body, -, hbody⟩ := hformed.exists_body hshape
  obtain rfl : body = text := by simpa [Segment.literal?, hshape, hbody] using hliteral
  rw [hbody, List.cons_append] at hhere
  obtain ⟨-, more, -, -, hmore⟩ := Bytes.exists_ofChars_of_cons hhere (by decide)
  have hquote : ∀ b ∈ [Byte.quote].head?, b.isContinuation = false := by
    rintro b ⟨⟩
    rfl
  obtain ⟨before, -, -, hbefore, -⟩ := Bytes.exists_ofChars_of_append hmore hquote
  exact ⟨before, hbefore⟩

theorem liesIn_iff {shapes : List Shape} {i : Nat} : s.text.LiesIn shapes i ↔
    ∃ p ∈ s.placed, p.segment.shape ∈ shapes ∧ p.span.covers i := by
  constructor
  · rintro ⟨start, t, hcut, hshape, hi, hi'⟩
    obtain ⟨p, hp, rfl, rfl⟩ := cutAt_iff.mp hcut
    exact ⟨p, hp, hshape, Span.covers_iff.mpr ⟨hi, offset_stop_of_mem_placed hp ▸ hi'⟩⟩
  · rintro ⟨p, hp, hshape, hcovers⟩
    obtain ⟨hi, hi'⟩ := Span.covers_iff.mp hcovers
    exact ⟨_, _, cutAt_iff.mpr ⟨p, hp, rfl, rfl⟩, hshape, hi, offset_stop_of_mem_placed hp ▸ hi'⟩

instance (s : Source) (shapes : List Shape) (i : Nat) : Decidable (s.text.LiesIn shapes i) :=
  decidable_of_iff _ liesIn_iff.symm

/-- Whether no byte of a code point lies in a token, a blank, a comment or a string without an
end. -/
def IsOutside (s : Source) (tokens : List Token) (a : Nat × Char) : Prop :=
  ∀ i ∈ List.range' a.1 a.2.utf8Size,
    (∀ t ∈ tokens, ¬ t.span.covers i) ∧ ¬ s.text.LiesIn [.blank, .comment, .unclosed] i

instance (s : Source) (tokens : List Token) : DecidablePred (s.IsOutside tokens) :=
  fun a => inferInstanceAs (Decidable (∀ i ∈ List.range' a.1 a.2.utf8Size, _))

theorem isOutside_of_stray (hp : p ∈ s.placed) (hshape : p.segment.shape = .stray)
    {a : Nat × Char} (ha : ∀ i ∈ List.range' a.1 a.2.utf8Size, p.span.covers i) :
    s.IsOutside s.tokens a := by
  intro i hi
  have hpi := ha i hi
  constructor
  · intro t ht hti
    rcases exists_of_mem_tokens ht with rfl | ⟨q, hq, hqt⟩
    · obtain ⟨hle, hlt⟩ := Span.covers_iff.mp hti
      exact absurd (hle.trans_lt hlt) (Nat.lt_irrefl s.stop.offset)
    · rw [(Placed.token?_eq_some hqt).2.2.2] at hti
      obtain rfl := eq_of_covers hp hq hpi hti
      rw [Placed.token?_eq_none (by rw [hshape]; rfl)] at hqt
      cases hqt
  · rw [liesIn_iff]
    rintro ⟨q, hq, hskipped, hqi⟩
    obtain rfl := eq_of_covers hp hq hpi hqi
    simp [hshape] at hskipped

theorem not_isOutside_of_not_stray (hp : p ∈ s.placed) (hshape : p.segment.shape ≠ .stray)
    {a : Nat × Char} (ha : p.span.covers a.1) : ¬ s.IsOutside s.tokens a := by
  intro houtside
  have hfirst : a.1 ∈ List.range' a.1 a.2.utf8Size :=
    List.mem_range'_1.mpr ⟨le_rfl, Nat.lt_add_of_pos_right a.2.utf8Size_pos⟩
  obtain ⟨htokens, hskipped⟩ := houtside _ hfirst
  by_cases htoken : p.segment.shape.isToken
  · rw [← Segment.isSome_kind?] at htoken
    obtain ⟨t, ht⟩ : ∃ t, p.token? = some t := by
      rwa [← Option.isSome_iff_exists, Placed.token?, Option.isSome_map]
    have hmem : t ∈ s.tokens := by
      rw [tokens_eq]
      exact List.mem_append_left _ (List.mem_filterMap.mpr ⟨p, hp, ht⟩)
    exact htokens t hmem ((Placed.token?_eq_some ht).2.2.2 ▸ ha)
  · refine hskipped (liesIn_iff.mpr ⟨p, hp, ?_, ha⟩)
    revert htoken hshape
    cases p.segment.shape <;> simp [Shape.isToken]

/-- A code point lies outside exactly if the segment that it lies in is stray. -/
theorem isOutside_iff (hp : p ∈ s.placed) {a : Nat × Char} (hstart : p.span.start.offset ≤ a.1)
    (hstop : a.1 + a.2.utf8Size ≤ p.span.stop.offset) :
    s.IsOutside s.tokens a ↔ p.segment.shape = .stray := by
  have hcovers : ∀ i, a.1 ≤ i → i < a.1 + a.2.utf8Size → p.span.covers i :=
    fun i hi hi' => Span.covers_iff.mpr ⟨by omega, by omega⟩
  refine ⟨fun houtside => ?_, fun hshape => isOutside_of_stray hp hshape fun i hi => ?_⟩
  · by_contra hshape
    have hfirst := hcovers a.1 le_rfl (Nat.lt_add_of_pos_right a.2.utf8Size_pos)
    exact not_isOutside_of_not_stray hp hshape hfirst houtside
  · obtain ⟨hi, hi'⟩ := List.mem_range'_1.mp hi
    exact hcovers i hi hi'

end Source

/-! ## Scans of code points -/

/-- What holds of a scan of the code points `chars`: all texts are valid, all spans begin and end
between code points, and each code point that lies outside is reported by itself, and nothing else
is reported as unexpected. -/
structure Source.ScannedByChar (s : Source) (chars : List Char) (tokens : List Token)
    (reports : List Diagnostic) : Prop where
  lexeme : ∀ t ∈ tokens, t.lexeme.IsUtf8
  string : ∀ t ∈ tokens, ∀ text, t.literal = some (.string text) → text.IsUtf8
  message : ∀ d ∈ reports, d.message.IsUtf8
  boundary : ∀ span ∈ tokens.map (·.span) ++ reports.map (·.span),
    s.text.IsBoundary span.start.offset ∧ s.text.IsBoundary span.stop.offset
  unexpected : (reports.filter (·.code = some .unexpectedCharacter)).map
      (fun d => (d.span.start.offset, d.span.stop.offset, d.message)) =
    ((Bytes.charOffsets 0 chars).filter (s.IsOutside tokens)).map fun a =>
      (a.1, a.1 + a.2.utf8Size, ascii "Unexpected character " ++ String.utf8EncodeChar a.2)
  count_unexpected : reports.countP (·.code = some .unexpectedCharacter) =
    (Bytes.charOffsets 0 chars).countP (s.IsOutside tokens)

namespace Source

variable {s : Source} {chars : List Char}

theorem isUtf8_message (hs : s.text = Bytes.ofChars chars) {f : Fault} (h : f ∈ s.faults) :
    f.message.IsUtf8 := by
  obtain ⟨p, hp, hpf⟩ := List.mem_filterMap.mp h
  unfold Placed.fault? at hpf
  split at hpf
  · cases hpf
    have hwords : Bytes.IsUtf8 (ascii "Unexpected character ") :=
      ⟨"Unexpected character ".toList, by decide⟩
    exact hwords.append (isUtf8_text_of_mem_placed hs hp)
  · cases hpf
    have hwords : Bytes.IsUtf8 (ascii "Unterminated String.") :=
      ⟨"Unterminated String.".toList, by decide⟩
    exact hwords
  · cases hpf

theorem isBoundary_of_mem_tokens (hs : s.text = Bytes.ofChars chars) {t : Token}
    (h : t ∈ s.tokens) :
    s.text.IsBoundary t.span.start.offset ∧ s.text.IsBoundary t.span.stop.offset := by
  rcases exists_of_mem_tokens h with rfl | ⟨p, hp, hpt⟩
  · have hend : s.text.IsBoundary s.stop.offset :=
      ⟨chars, [], by simp [hs], by simp [stop, hs, Position.start]⟩
    exact ⟨hend, hend⟩
  · exact (Placed.token?_eq_some hpt).2.2.2 ▸ isBoundary_of_mem_placed hs hp

theorem isBoundary_of_mem_faults (hs : s.text = Bytes.ofChars chars) {f : Fault}
    (h : f ∈ s.faults) :
    s.text.IsBoundary f.span.start.offset ∧ s.text.IsBoundary f.span.stop.offset := by
  obtain ⟨p, hp, hpf⟩ := List.mem_filterMap.mp h
  have hplaced := isBoundary_of_mem_placed hs hp
  rcases Placed.fault?_eq_some hpf with ⟨-, -, hspan⟩ | ⟨-, -, hspan⟩
  · exact hspan ▸ hplaced
  · exact hspan ▸ ⟨hplaced.2, hplaced.2⟩

/-- What is reported as unexpected are the code points that lie outside. -/
theorem map_unexpected (hs : s.text = Bytes.ofChars chars) (origin : Bytes) :
    ((s.faults.map (Fault.diagnostic origin)).filter
        (·.code = some .unexpectedCharacter)).map
          (fun d => (d.span.start.offset, d.span.stop.offset, d.message)) =
      ((Bytes.charOffsets 0 chars).filter (s.IsOutside s.tokens)).map fun a =>
        (a.1, a.1 + a.2.utf8Size, ascii "Unexpected character " ++ String.utf8EncodeChar a.2) := by
  have hsegments : s.text.segments.flatMap (·.text) = Bytes.ofChars chars := by
    rw [Bytes.flatMap_text_segments, hs]
  have hstray : (s.placed.filter (·.segment.shape = .stray)).map
      (fun p => (p.span.start.offset, p.span.stop.offset, p.segment.text)) = _ :=
    (Segment.chained_segments s.text).filter_charOffsets (q := fun a => s.IsOutside s.tokens a)
      hsegments fun p hp a hstart hstop => decide_eq_decide.mpr (isOutside_iff hp hstart hstop)
  have hquote := congrArg (List.map fun m : Nat × Nat × Bytes =>
    (m.1, m.2.1, ascii "Unexpected character " ++ m.2.2)) hstray
  rw [List.map_map, List.map_map] at hquote
  rw [filter_unexpected, List.map_map]
  exact hquote

/-- A scan of valid UTF-8 keeps code points whole and reports each one that it does not know by
itself. -/
theorem scan_scannedByChar (s : Source) (sink : Sink) (chars : List Char)
    (hs : s.text = Bytes.ofChars chars) : ∃ tokens reports,
      s.scan sink = (tokens, { sink with entries := sink.entries ++ reports }) ∧
        s.ScannedByChar chars tokens reports := by
  refine ⟨s.tokens, s.faults.map (Fault.diagnostic sink.origin), s.scan_eq sink, ?_⟩
  constructor
  case lexeme =>
    intro t ht
    rcases exists_of_mem_tokens ht with rfl | ⟨p, hp, hpt⟩
    · exact Bytes.isUtf8_ofChars []
    · exact (Placed.token?_eq_some hpt).2.1 ▸ isUtf8_text_of_mem_placed hs hp
  case string =>
    intro t ht text htext
    rcases exists_of_mem_tokens ht with rfl | ⟨p, hp, hpt⟩
    · cases htext
    · obtain ⟨kind, -, rfl⟩ := Option.map_eq_some_iff.mp hpt
      exact isUtf8_of_literal?_eq_string hs hp htext
  case message => exact List.forall_mem_map.mpr fun f => isUtf8_message hs
  case boundary =>
    refine List.forall_mem_append.mpr ⟨?_, ?_⟩
    · exact List.forall_mem_map.mpr fun t => isBoundary_of_mem_tokens hs
    · rw [List.map_map]
      exact List.forall_mem_map.mpr fun f => isBoundary_of_mem_faults hs
  case unexpected => exact map_unexpected hs sink.origin
  case count_unexpected =>
    have hlength := congrArg List.length (map_unexpected hs sink.origin)
    rwa [List.length_map, List.length_map, ← List.countP_eq_length_filter,
      ← List.countP_eq_length_filter] at hlength

/-- Characters of every length, in a string, in a comment and outside. -/
theorem scan_scannedByChar_at :
    let chars : List Char := "é\"ü\" €1//ñ\n𝄞".toList
    let s : Source := ⟨[0xC3, 0xA9, 0x22, 0xC3, 0xBC, 0x22, 0x20, 0xE2, 0x82, 0xAC, 0x31, 0x2F,
      0x2F, 0xC3, 0xB1, 0x0A, 0xF0, 0x9D, 0x84, 0x9E], [], 0⟩
    let sink : Sink := ⟨ascii "Scanner", []⟩
    s.text = Bytes.ofChars chars ∧ ∃ tokens reports,
      s.scan sink = (tokens, { sink with entries := sink.entries ++ reports }) ∧
        s.ScannedByChar chars tokens reports := by
  intro chars s sink
  have hs : s.text = Bytes.ofChars chars := by decide
  exact ⟨hs, scan_scannedByChar s sink chars hs⟩

end Source

end LoxLex
