import Mathlib.Data.List.Basic
import LoxLex.Proofs.Chain
import LoxLex.Proofs.Placed

/-!
# Line endings

Lines may end in a carriage return and a newline, or in the newline alone. A scan finds the same
on both: a carriage return before a newline is a blank or lies in a comment or a string, and the
newline behind it sets lines and columns right again. Only offsets tell the two texts apart.

## Main definitions

* `Bytes.dropReturns` — a text whose lines end in the newline alone.
* `Token.dropReturns` — a token with such texts.
* `Position.withoutOffset` and others — what is left of a place without its offset.
* `Segment.Returnless` — the segments of the two texts side by side.

## Main statements

* `Segment.returnless_segments`: the two texts are cut alike.
* `Source.scan_dropReturns`: the two texts are scanned alike.
-/

namespace LoxLex

/-- The text with a newline in place of each carriage return and newline. -/
def Bytes.dropReturns : Bytes → Bytes
  | [] => []
  | [b] => [b]
  | b :: c :: rest =>
    if b = Byte.carriageReturn ∧ c = Byte.newline then Byte.newline :: dropReturns rest
    else b :: dropReturns (c :: rest)

def Literal.dropReturns : Literal → Literal
  | number value => .number value
  | string text => .string text.dropReturns

def Token.dropReturns (t : Token) : Token :=
  { t with lexeme := t.lexeme.dropReturns, literal := t.literal.map Literal.dropReturns }

def Segment.dropReturns (s : Segment) : Segment := { s with text := s.text.dropReturns }

/-! ## Places without offsets -/

def Position.withoutOffset (p : Position) : Position := { p with offset := 0 }

def Span.withoutOffsets (s : Span) : Span :=
  { s with start := s.start.withoutOffset, stop := s.stop.withoutOffset }

def Token.withoutOffsets (t : Token) : Token := { t with span := t.span.withoutOffsets }

def Diagnostic.withoutOffsets (d : Diagnostic) : Diagnostic :=
  { d with span := d.span.withoutOffsets }

/-! ## Texts -/

namespace Bytes

variable {text tail : Bytes} {b : Byte}

theorem dropReturns_cons (h : b ≠ Byte.carriageReturn) :
    dropReturns (b :: text) = b :: dropReturns text := by
  cases text <;> simp [dropReturns, h]

theorem dropReturns_return_newline :
    dropReturns (Byte.carriageReturn :: Byte.newline :: text) =
      Byte.newline :: dropReturns text := by
  simp [dropReturns]

/-- Two texts can be rewritten apart unless one line ending is in both. -/
theorem dropReturns_append (h : ¬ (text.getLast? = some Byte.carriageReturn ∧
    tail.head? = some Byte.newline)) :
    dropReturns (text ++ tail) = dropReturns text ++ dropReturns tail := by
  fun_induction dropReturns text with
  | case1 => rfl
  | case2 b => cases tail <;> simp_all [dropReturns]
  | case3 b c rest hpair ih =>
    obtain ⟨rfl, rfl⟩ := hpair
    rw [List.cons_append, List.cons_append, dropReturns_return_newline, List.cons_append, ih]
    grind
  | case4 b c rest hpair ih =>
    rw [List.cons_append, List.cons_append, dropReturns, if_neg hpair, List.cons_append,
      ← List.cons_append, ih]
    simpa using h

theorem mem_of_mem_dropReturns (h : b ∈ dropReturns text) : b ∈ text := by
  fun_induction dropReturns text <;> grind

theorem dropReturns_of_notMem (h : Byte.newline ∉ text) : dropReturns text = text := by
  fun_induction dropReturns text <;> grind

theorem getLast?_dropReturns : (dropReturns text).getLast? = text.getLast? := by
  fun_induction dropReturns text with
  | case1 => rfl
  | case2 => rfl
  | case3 b c rest hpair ih => rw [List.getLast?_cons, ih, hpair.2]; grind
  | case4 b c rest hpair ih => rw [List.getLast?_cons, ih]; grind

theorem dropReturns_append_newline (h : Byte.newline ∉ text) :
    dropReturns (text ++ [Byte.newline]) = dropCarriageReturn text ++ [Byte.newline] := by
  unfold dropCarriageReturn
  split
  · next hlast =>
    obtain ⟨init, rfl⟩ := List.getLast?_eq_some_iff.mp hlast
    have hinit : Byte.newline ∉ init := fun hmem => h (List.mem_append_left _ hmem)
    have hapart : Byte.carriageReturn ≠ Byte.newline := by decide
    rw [List.append_assoc, dropReturns_append (by simp [hapart]), dropReturns_of_notMem hinit,
      List.dropLast_concat]
    rfl
  · next hlast =>
    rw [dropReturns_append (fun hends => hlast hends.1), dropReturns_of_notMem h]
    rfl

theorem dropReturns_quoted (body : Bytes) :
    dropReturns (Byte.quote :: body ++ [Byte.quote]) =
      Byte.quote :: body.dropReturns ++ [Byte.quote] := by
  rw [List.cons_append, dropReturns_cons (by decide),
    dropReturns_append fun hends => absurd hends.2 (by decide)]
  rfl

theorem mem_of_mem_dropCarriageReturn (h : b ∈ dropCarriageReturn text) : b ∈ text := by
  unfold dropCarriageReturn at h
  split at h
  · exact List.dropLast_subset _ h
  · exact h

end Bytes

/-! ## Segments -/

namespace Position

variable {p q : Position}

theorem withoutOffset_step (h : p.withoutOffset = q.withoutOffset) (b : Byte) :
    (p.step b).withoutOffset = (q.step b).withoutOffset := by
  simp only [withoutOffset, Position.mk.injEq, and_true] at h
  unfold step
  split <;> simp [withoutOffset, h]

/-- A newline leads to the same place from everywhere on a line. -/
theorem withoutOffset_step_newline (h : p.line = q.line) :
    (p.step Byte.newline).withoutOffset = (q.step Byte.newline).withoutOffset := by
  simp [withoutOffset, step, h]

theorem line_step_of_ne {b : Byte} (h : b ≠ Byte.newline) : (p.step b).line = p.line := by
  rw [step, if_neg h]

theorem line_eq_of_withoutOffset (h : p.withoutOffset = q.withoutOffset) : p.line = q.line :=
  (Position.mk.inj h).1

theorem withoutOffset_after (h : p.withoutOffset = q.withoutOffset) (text : Bytes) :
    (p.after text).withoutOffset = (q.after text.dropReturns).withoutOffset := by
  fun_induction Bytes.dropReturns text generalizing p q with
  | case1 => exact h
  | case2 b => exact withoutOffset_step h b
  | case3 b c rest hpair ih =>
    obtain ⟨rfl, rfl⟩ := hpair
    have hline := line_eq_of_withoutOffset h
    rw [← line_step_of_ne (by decide : Byte.carriageReturn ≠ Byte.newline)] at hline
    exact ih (withoutOffset_step_newline hline)
  | case4 b c rest hpair ih => exact ih (withoutOffset_step h b)

end Position

theorem Shape.Spells.dropReturns {shape : Shape} {text : Bytes} (h : shape.Spells text)
    (hsolid : shape.isSolid = false) : shape.Spells text.dropReturns := by
  have hslash : Byte.slash ≠ Byte.carriageReturn := by decide
  cases h with
  | blank hb => exact .blank hb
  | comment hbody =>
    rw [Bytes.dropReturns_cons hslash, Bytes.dropReturns_cons hslash,
      Bytes.dropReturns_of_notMem hbody]
    exact .comment hbody
  | commentLine hbody =>
    rw [List.cons_append, List.cons_append, Bytes.dropReturns_cons hslash,
      Bytes.dropReturns_cons hslash, Bytes.dropReturns_append_newline hbody]
    exact .commentLine fun hmem => hbody (Bytes.mem_of_mem_dropCarriageReturn hmem)
  | string hbody =>
    rw [Bytes.dropReturns_quoted]
    exact .string fun hmem => hbody (Bytes.mem_of_mem_dropReturns hmem)
  | _ => cases hsolid

namespace Segment

variable {s : Segment} {tail : Bytes}

theorem Formed.dropReturns_eq (h : s.Formed) (hsolid : s.shape.isSolid) : s.dropReturns = s := by
  rw [dropReturns, Bytes.dropReturns_of_notMem (h.newline_notMem hsolid)]

theorem Formed.dropReturns (h : s.Formed) : s.dropReturns.Formed := by
  by_cases hsolid : s.shape.isSolid
  · rwa [h.dropReturns_eq hsolid]
  · cases h with
    | spelled h => exact .spelled (h.dropReturns (by simpa using hsolid))
    | @unclosed body hbody =>
      rw [Segment.dropReturns, Bytes.dropReturns_cons (by decide)]
      exact .unclosed fun hmem => hbody (Bytes.mem_of_mem_dropReturns hmem)
    | stray => exact absurd rfl hsolid

/-- In place of a carriage return stands a newline, which stops as much. -/
theorem stopsLike_dropReturns (text : Bytes) : StopsLike text text.dropReturns := by
  fun_induction Bytes.dropReturns text with
  | case1 => exact .refl []
  | case2 b => exact .refl [b]
  | case3 => exact .cons_of_isBlank rfl
  | case4 b c rest hpair ih => exact ih.cons b

theorem StopsAt.dropReturns (hs : s.Formed) (h : s.StopsAt tail) :
    s.dropReturns.StopsAt tail.dropReturns := by
  have hstop := h.of_stopsLike (stopsLike_dropReturns tail)
  by_cases hsolid : s.shape.isSolid
  · rwa [hs.dropReturns_eq hsolid]
  · obtain ⟨shape, text⟩ := s
    cases shape with
    | comment => exact hstop.imp_left Bytes.getLast?_dropReturns.trans
    | blank => trivial
    | string => trivial
    | unclosed => exact hstop
    | _ => exact absurd rfl hsolid

/-- Only a blank ends in a carriage return. -/
theorem Formed.eq_blank_of_getLast? (h : s.Formed) (hstop : s.StopsAt tail) (htail : tail ≠ [])
    (hlast : s.text.getLast? = some Byte.carriageReturn) : s = ⟨.blank, [Byte.carriageReturn]⟩ := by
  have hmem := List.mem_of_getLast? hlast
  have hsolid : s.shape.isSolid = false := by
    rw [← Bool.not_eq_true]
    intro hsolid
    cases h.isBlank_eq_false hsolid _ hmem
  cases h with
  | @spelled s h =>
    obtain ⟨shape, text⟩ := s
    cases h with
    | @blank b =>
      obtain rfl : b = Byte.carriageReturn := Option.some.inj hlast
      rfl
    | comment hbody =>
      have hnewline := List.mem_of_getLast? (hstop.resolve_right htail)
      simp [hbody, show Byte.newline ≠ Byte.slash by decide] at hnewline
    | @commentLine body =>
      change (Byte.slash :: Byte.slash :: body ++ [Byte.newline]).getLast? = _ at hlast
      rw [List.getLast?_concat] at hlast
      cases hlast
    | @string body =>
      change (Byte.quote :: body ++ [Byte.quote]).getLast? = _ at hlast
      rw [List.getLast?_concat] at hlast
      cases hlast
    | _ => cases hsolid
  | unclosed => exact absurd hstop htail
  | stray => cases hsolid

/-- The segments of a text and of the text without its carriage returns before newlines. -/
inductive Returnless : List Segment → List Segment → Prop where
  | nil : Returnless [] []
  | pair {l m : List Segment} (h : Returnless l m) :
      Returnless (⟨.blank, [Byte.carriageReturn]⟩ :: ⟨.blank, [Byte.newline]⟩ :: l)
        (⟨.blank, [Byte.newline]⟩ :: m)
  | cons {s : Segment} {l m : List Segment} (hs : s.Formed) (h : Returnless l m) :
      Returnless (s :: l) (s.dropReturns :: m)

theorem segments_newline (tail : Bytes) :
    Bytes.segments (Byte.newline :: tail) = ⟨.blank, [Byte.newline]⟩ :: tail.segments :=
  segments_append (s := ⟨.blank, [Byte.newline]⟩) (.spelled (.blank rfl)) trivial

theorem Chained.returnless {l : List Segment} (h : Chained l) :
    Returnless l (Bytes.dropReturns (l.flatMap (·.text))).segments := by
  induction h with
  | nil => simpa [Bytes.dropReturns] using Returnless.nil
  | @cons s rest hs hstop hrest ih =>
    rw [List.flatMap_cons]
    by_cases hends : s.text.getLast? = some Byte.carriageReturn ∧
        (rest.flatMap (·.text)).head? = some Byte.newline
    · obtain ⟨tail, htail⟩ := List.head?_eq_some_iff.mp hends.2
      have hsegments := segments_flatMap_text hrest
      rw [htail] at hstop ih hsegments ⊢
      obtain rfl := hs.eq_blank_of_getLast? hstop (List.cons_ne_nil _ _) hends.1
      obtain rfl := (segments_newline tail).symm.trans hsegments
      rw [Bytes.dropReturns_cons (by decide), segments_newline] at ih
      rw [List.singleton_append, Bytes.dropReturns_return_newline, segments_newline]
      cases ih with
      | cons _ ih => exact .pair ih
    · rw [Bytes.dropReturns_append hends]
      have hsegments := segments_append hs.dropReturns (hstop.dropReturns hs)
      exact hsegments ▸ .cons hs ih

/-- Without the carriage returns before newlines a text is cut as before. -/
theorem returnless_segments (text : Bytes) :
    Returnless text.segments text.dropReturns.segments := by
  simpa using (chained_segments text).returnless

/-! ## Scans -/

theorem Formed.kind?_dropReturns (h : s.Formed) : s.dropReturns.kind? = s.kind? := by
  by_cases hsolid : s.shape.isSolid
  · rw [h.dropReturns_eq hsolid]
  · obtain ⟨shape, text⟩ := s
    cases shape with
    | word => exact absurd rfl hsolid
    | _ => rfl

theorem Formed.literal?_dropReturns (h : s.Formed) :
    s.dropReturns.literal? = s.literal?.map Literal.dropReturns := by
  obtain ⟨shape, text⟩ := s
  cases shape with
  | number =>
    rw [h.dropReturns_eq rfl]
    rfl
  | string =>
    obtain ⟨body, -, rfl⟩ := h.exists_body rfl
    rw [Segment.dropReturns, Bytes.dropReturns_quoted]
    simp [literal?, Literal.dropReturns]
  | _ => rfl

variable {α : Type} {f g : Placed → Option α} {file : UInt32} {p q : Position}

/-- What is told of segments and their places but for the offsets is told of the segments of both
texts. -/
theorem Returnless.filterMap_place {l m : List Segment} (h : Returnless l m)
    (hf : ∀ (s : Segment) (span span' : Span), s.Formed →
      span.withoutOffsets = span'.withoutOffsets → f ⟨s.dropReturns, span'⟩ = g ⟨s, span⟩)
    (hg : ∀ b span, g ⟨⟨.blank, [b]⟩, span⟩ = none)
    (hplace : p.withoutOffset = q.withoutOffset) :
    (place file q m).filterMap f = (place file p l).filterMap g := by
  induction h generalizing p q with
  | nil => rfl
  | @pair l m h ih =>
    have hblank : ∀ span, f ⟨⟨.blank, [Byte.newline]⟩, span⟩ = none := fun span =>
      (hf ⟨.blank, [Byte.newline]⟩ span span (.spelled (.blank rfl)) rfl).trans (hg _ _)
    have hplace' := Position.withoutOffset_after hplace [Byte.carriageReturn, Byte.newline]
    simp only [place, List.filterMap_cons, hblank, hg]
    exact ih hplace'
  | @cons s l m hs h ih =>
    have hplace' := Position.withoutOffset_after hplace s.text
    have hspan : Span.withoutOffsets ⟨p, p.after s.text, file⟩ =
        Span.withoutOffsets ⟨q, q.after s.dropReturns.text, file⟩ := by
      rw [Span.withoutOffsets, Span.withoutOffsets, hplace, hplace']
      rfl
    have hrest : (place file (q.after s.dropReturns.text) m).filterMap f = _ := ih hplace'
    simp only [place, List.filterMap_cons, hf s _ _ hs hspan, hrest]

end Segment

namespace Placed

variable {s : Segment} {span span' : Span}

theorem token?_dropReturns (h : s.Formed) (hspan : span.withoutOffsets = span'.withoutOffsets) :
    (token? ⟨s.dropReturns, span'⟩).map Token.withoutOffsets =
      (token? ⟨s, span⟩).map fun t => t.dropReturns.withoutOffsets := by
  have hline : span.stop.line = span'.stop.line :=
    Position.line_eq_of_withoutOffset (congrArg Span.stop hspan)
  simp only [token?, Option.map_map, h.kind?_dropReturns, h.literal?_dropReturns]
  refine Option.map_congr fun kind _ => ?_
  simp only [Function.comp_apply, Token.withoutOffsets, Token.dropReturns, hspan, hline]
  rfl

theorem fault?_dropReturns (h : s.Formed) (hspan : span.withoutOffsets = span'.withoutOffsets)
    (origin : Bytes) :
    ((fault? ⟨s.dropReturns, span'⟩).map (Fault.diagnostic origin)).map
        Diagnostic.withoutOffsets =
      ((fault? ⟨s, span⟩).map (Fault.diagnostic origin)).map Diagnostic.withoutOffsets := by
  obtain ⟨shape, text⟩ := s
  cases shape with
  | stray =>
    rw [h.dropReturns_eq rfl]
    simp only [fault?, Option.map_some, Diagnostic.withoutOffsets, Fault.diagnostic, Fault.span,
      hspan]
    rfl
  | unclosed =>
    have hstop : span.atEnd.withoutOffsets = span'.atEnd.withoutOffsets :=
      congrArg Span.atEnd hspan
    simp only [fault?, Segment.dropReturns, Option.map_some, Diagnostic.withoutOffsets,
      Fault.diagnostic, Fault.span, hstop]
    rfl
  | _ => rfl

end Placed

namespace Source

variable {α : Type} {f g : Placed → Option α}

theorem filterMap_placed_dropReturns
    (hf : ∀ (s : Segment) (span span' : Span), s.Formed →
      span.withoutOffsets = span'.withoutOffsets → f ⟨s.dropReturns, span'⟩ = g ⟨s, span⟩)
    (hg : ∀ b span, g ⟨⟨.blank, [b]⟩, span⟩ = none) (s : Source) :
    (({ s with text := s.text.dropReturns } : Source).placed).filterMap f =
      s.placed.filterMap g :=
  (Segment.returnless_segments s.text).filterMap_place hf hg rfl

/-- Whether the lines of a source end in a carriage return and a newline or in the newline alone,
a scan finds the same tokens, with lexemes and strings that differ in just this, and the same
diagnostics, each on the same lines and columns. -/
theorem scan_dropReturns (s : Source) (sink : Sink) :
    let bare : Source := { s with text := s.text.dropReturns }
    (bare.scan sink).1.map Token.withoutOffsets =
        (s.scan sink).1.map (fun t => t.dropReturns.withoutOffsets) ∧
      (bare.scan sink).2.entries.map Diagnostic.withoutOffsets =
        (s.scan sink).2.entries.map Diagnostic.withoutOffsets := by
  intro bare
  have hstop : s.stop.withoutOffset = bare.stop.withoutOffset :=
    Position.withoutOffset_after rfl s.text
  constructor
  · have htokens := filterMap_placed_dropReturns (f := fun p => p.token?.map Token.withoutOffsets)
      (g := fun p => p.token?.map fun t => t.dropReturns.withoutOffsets)
      (fun _ _ _ hs hspan => Placed.token?_dropReturns hs hspan) (fun _ _ => rfl) s
    have heof : bare.eof.withoutOffsets = s.eof.dropReturns.withoutOffsets := by
      simp only [eof, Token.withoutOffsets, Token.dropReturns, Span.withoutOffsets, hstop,
        Position.line_eq_of_withoutOffset hstop]
      rfl
    simp only [scan_eq, tokens_eq, List.map_append, List.map_filterMap, List.map_singleton, heof]
    exact congrArg (· ++ _) htokens
  · let report (p : Placed) : Option Diagnostic :=
      (p.fault?.map (Fault.diagnostic sink.origin)).map Diagnostic.withoutOffsets
    have hfaults := filterMap_placed_dropReturns (f := report) (g := report)
      (fun _ _ _ hs hspan => Placed.fault?_dropReturns hs hspan sink.origin) (fun _ _ => rfl) s
    simp only [scan_eq, Sink.addFaults, faults, List.map_append, List.map_filterMap]
    exact congrArg (_ ++ ·) hfaults

end Source

end LoxLex
