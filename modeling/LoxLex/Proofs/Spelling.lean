import Mathlib.Data.List.TakeWhile
import LoxLex.Proofs.ByteClass
import LoxLex.Proofs.Symbol

/-!
# How segments are spelled

The regular shapes are languages, given here without a word on how a text is cut. A segment is
well formed if it is spelled in the language of its shape or is one of the two faults.

## Main definitions

* `Shape.Spells` — the texts in the language of a shape.
* `Segment.Formed` — the segments that can come out of a text.

## Main statements

* `Segment.first_of_isBlank` and others: the first segment by the first byte.
* `Segment.formed_first`: the first segment of a text is well formed.
-/

namespace LoxLex

/-- The languages of the regular shapes. Nothing spells a fault. -/
inductive Shape.Spells : Shape → Bytes → Prop where
  | blank {b : Byte} (hb : b.isBlank) : Spells .blank [b]
  | comment {body : Bytes} (hbody : Byte.newline ∉ body) :
      Spells .comment (Byte.slash :: Byte.slash :: body)
  | commentLine {body : Bytes} (hbody : Byte.newline ∉ body) :
      Spells .comment (Byte.slash :: Byte.slash :: body ++ [Byte.newline])
  | symbol (s : Symbol) : Spells (.symbol s) s.spelling
  | word {b : Byte} {rest : Bytes} (hb : b.isWordStart) (hrest : ∀ c ∈ rest, c.isWordPart) :
      Spells .word (b :: rest)
  | whole {digits : Bytes} (hne : digits ≠ []) (hdigits : ∀ c ∈ digits, c.isDigit) :
      Spells .number digits
  | fractional {digits fraction : Bytes} (hne : digits ≠ []) (hdigits : ∀ c ∈ digits, c.isDigit)
      (hne' : fraction ≠ []) (hfraction : ∀ c ∈ fraction, c.isDigit) :
      Spells .number (digits ++ Byte.dot :: fraction)
  | string {body : Bytes} (hbody : Byte.quote ∉ body) :
      Spells .string (Byte.quote :: body ++ [Byte.quote])

/-- Whether segments of the shape are tokens. -/
def Shape.isToken : Shape → Bool
  | symbol _ | word | number | string => true
  | _ => false

/-- Whether segments of the shape are faults. -/
def Shape.isFault : Shape → Bool
  | unclosed | stray => true
  | _ => false

/-- Whether no blank can be in a segment of the shape. -/
def Shape.isSolid : Shape → Bool
  | symbol _ | word | number | stray => true
  | _ => false

theorem Shape.isFault_eq_false_of_isToken {shape : Shape} (h : shape.isToken) :
    shape.isFault = false := by
  cases shape with
  | unclosed => cases h
  | stray => cases h
  | _ => rfl

/-- Whether a byte begins none of the regular shapes. -/
def Byte.isForeign (b : Byte) : Bool :=
  !(b.isBlank || b.isWordStart || b.isDigit || b == quote || Symbol.opens b)

/-- A segment in the language of its shape, a string without an end, or a byte that begins
nothing else; if it is a lead byte, then with bytes that may follow it. -/
inductive Segment.Formed : Segment → Prop where
  | spelled {s : Segment} (h : s.shape.Spells s.text) : Formed s
  | unclosed {body : Bytes} (hbody : Byte.quote ∉ body) :
      Formed ⟨.unclosed, Byte.quote :: body⟩
  | stray {b : Byte} {run : Bytes} (hb : b.isForeign) (hlead : run ≠ [] → b.isLead)
      (hrun : ∀ c ∈ run, c.isContinuation) : Formed ⟨.stray, b :: run⟩

theorem Shape.Spells.ne_nil {shape : Shape} {text : Bytes} (h : shape.Spells text) :
    text ≠ [] := by
  cases h with
  | symbol s => exact s.spelling_ne_nil
  | whole hne => exact hne
  | _ => simp

theorem Segment.Formed.text_ne_nil {s : Segment} (h : s.Formed) : s.text ≠ [] := by
  cases h with
  | spelled h => exact h.ne_nil
  | _ => simp

theorem Segment.Formed.spells {s : Segment} (h : s.Formed) (hfault : s.shape.isFault = false) :
    s.shape.Spells s.text := by
  cases h with
  | spelled h => exact h
  | _ => cases hfault

/-- A string is what stands between its quotes. -/
theorem Segment.Formed.exists_body {s : Segment} (h : s.Formed) (hshape : s.shape = .string) :
    ∃ body, Byte.quote ∉ body ∧ s.text = Byte.quote :: body ++ [Byte.quote] := by
  have hspells := h.spells (by rw [hshape]; rfl)
  rw [hshape] at hspells
  generalize s.text = text at hspells
  cases hspells with
  | string hbody => exact ⟨_, hbody, rfl⟩

/-- A comment is what stands behind its slashes, and the newline behind that if there is one. -/
theorem Segment.Formed.exists_comment {s : Segment} (h : s.Formed) (hshape : s.shape = .comment) :
    ∃ body ending, Byte.newline ∉ body ∧ (ending = [] ∨ ending = [Byte.newline]) ∧
      s.text = Byte.slash :: Byte.slash :: body ++ ending := by
  have hspells := h.spells (by rw [hshape]; rfl)
  rw [hshape] at hspells
  generalize s.text = text at hspells
  cases hspells with
  | comment hbody => exact ⟨_, [], hbody, .inl rfl, (List.append_nil _).symm⟩
  | commentLine hbody => exact ⟨_, _, hbody, .inr rfl, rfl⟩

/-- A comment that no newline ends is what stands behind its slashes. -/
theorem Segment.Formed.exists_open_comment {s : Segment} (h : s.Formed)
    (hshape : s.shape = .comment) (hopen : s.text.getLast? ≠ some Byte.newline) :
    ∃ body, Byte.newline ∉ body ∧ s.text = Byte.slash :: Byte.slash :: body := by
  obtain ⟨body, ending, hbody, rfl | rfl, htext⟩ := h.exists_comment hshape
  · exact ⟨body, hbody, by rw [htext, List.append_nil]⟩
  · rw [htext, List.getLast?_concat] at hopen
    exact absurd rfl hopen

/-- Symbols, words and numbers are written in visible ASCII. -/
theorem Shape.Spells.isVisible {shape : Shape} {text : Bytes} (h : shape.Spells text)
    (hsolid : shape.isSolid) : ∀ c ∈ text, 32 < c.toNat ∧ c.toNat < 127 := by
  have hdigits : ∀ digits : Bytes, (∀ c ∈ digits, c.isDigit) →
      ∀ c ∈ digits, 32 < c.toNat ∧ c.toNat < 127 := by
    intro digits hall c hc
    have := Byte.isDigit_iff.mp (hall c hc)
    omega
  cases h with
  | symbol s =>
    have hspelling : ∀ s ∈ Symbol.all, ∀ c ∈ s.spelling, 32 < c.toNat ∧ c.toNat < 127 := by
      decide +kernel
    exact hspelling s s.mem_all
  | word hb hrest =>
    refine List.forall_mem_cons.mpr ⟨?_, fun c hc => ?_⟩
    · have := Byte.isWordStart_iff.mp hb
      omega
    · have := Byte.isWordPart_iff.mp (hrest c hc)
      omega
  | whole _ hall => exact hdigits _ hall
  | fractional _ hall _ hfraction =>
    refine List.forall_mem_append.mpr ⟨hdigits _ hall, ?_⟩
    exact List.forall_mem_cons.mpr ⟨by decide, hdigits _ hfraction⟩
  | _ => cases hsolid

/-- Words, numbers and symbols hold no blank, and what is stray holds none either: it begins with
no blank and goes on with continuation bytes. -/
theorem Segment.Formed.isBlank_eq_false {s : Segment} (h : s.Formed) (hsolid : s.shape.isSolid) :
    ∀ c ∈ s.text, c.isBlank = false := by
  cases h with
  | spelled h =>
    intro c hc
    have := h.isVisible hsolid c hc
    simp only [← Bool.not_eq_true, Byte.isBlank_iff]
    omega
  | unclosed => cases hsolid
  | stray hb hlead hrun =>
    refine List.forall_mem_cons.mpr ⟨?_, fun c hc => ?_⟩
    · simp only [Byte.isForeign, Bool.not_eq_true', Bool.or_eq_false_iff] at hb
      exact hb.1.1.1.1
    · have := Byte.isContinuation_iff.mp (hrun c hc)
      simp only [← Bool.not_eq_true, Byte.isBlank_iff]
      omega

theorem Segment.Formed.newline_notMem {s : Segment} (h : s.Formed) (hsolid : s.shape.isSolid) :
    Byte.newline ∉ s.text := by
  intro hmem
  cases h.isBlank_eq_false hsolid _ hmem

/-! ## Runs of bytes of one class -/

section Runs

variable {p : Byte → Bool} {run tail text : Bytes}

theorem takeWhile_stop (hstop : ∀ b ∈ tail.head?, p b = false) : tail.takeWhile p = [] := by
  cases tail with
  | nil => rfl
  | cons b tail => simp [hstop b rfl]

theorem takeWhile_append_stop (hrun : ∀ b ∈ run, p b) (hstop : ∀ b ∈ tail.head?, p b = false) :
    (run ++ tail).takeWhile p = run := by
  rw [List.takeWhile_append_of_pos hrun, takeWhile_stop hstop, List.append_nil]

theorem dropWhile_append_stop (hrun : ∀ b ∈ run, p b) (hstop : ∀ b ∈ tail.head?, p b = false) :
    (run ++ tail).dropWhile p = tail := by
  have h := List.takeWhile_append_dropWhile (p := p) (l := run ++ tail)
  rwa [takeWhile_append_stop hrun hstop, List.append_cancel_left_eq] at h

theorem head?_dropWhile_stop : ∀ b ∈ (text.dropWhile p).head?, p b = false := by
  intro b hb
  have := List.head?_dropWhile_not p text
  grind

/-- What is left behind the longest run. -/
theorem eq_dropWhile_of_append_eq (h : text.takeWhile p ++ tail = text) :
    tail = text.dropWhile p := by
  rwa [← List.append_cancel_left_eq (text.takeWhile p), List.takeWhile_append_dropWhile]

theorem isPrefix_takeWhile (hrun : ∀ b ∈ run, p b) (h : run <+: text) :
    run <+: text.takeWhile p := by
  obtain ⟨tail, rfl⟩ := h
  rw [List.takeWhile_append_of_pos hrun]
  exact List.prefix_append _ _

end Runs

namespace Segment

/-! ## The first segment by the first byte -/

section First

variable {b : Byte} {rest : Bytes}

theorem first_of_isBlank (h : b.isBlank) : first b rest = ⟨.blank, [b]⟩ := by
  simp [first, h]

theorem first_of_isWordStart (h : b.isWordStart) :
    first b rest = ⟨.word, b :: rest.takeWhile Byte.isWordPart⟩ := by
  simp [first, h, Byte.isBlank_eq_false_of_isWordStart h]

theorem first_of_isDigit (h : b.isDigit) : first b rest = ⟨.number, numeral (b :: rest)⟩ := by
  simp [first, h, Byte.isBlank_eq_false_of_isDigit h, Byte.isWordStart_eq_false_of_isDigit h]

theorem first_quote : first Byte.quote rest = quoted rest := rfl

theorem commentLine_slash_slash : commentLine (Byte.slash :: Byte.slash :: rest) =
    Byte.slash :: Byte.slash :: commentLine rest := by
  simp [commentLine, show Byte.slash ≠ Byte.newline by decide]

theorem first_slash_slash : first Byte.slash (Byte.slash :: rest) =
    ⟨.comment, Byte.slash :: Byte.slash :: commentLine rest⟩ :=
  congrArg (Segment.mk .comment) commentLine_slash_slash

theorem first_of_leading? {s : Symbol} (h : Symbol.leading? (b :: rest) = some s)
    (hslash : ¬ (b = Byte.slash ∧ rest.head? = some Byte.slash)) :
    first b rest = ⟨.symbol s, s.spelling⟩ := by
  obtain ⟨hblank, hword, hdigit, hquote⟩ :=
    Symbol.classes_of_opens (Symbol.opens_of_spelling_isPrefix (Symbol.spelling_isPrefix h))
  simp [first, hblank, hword, hdigit, hquote, hslash, h]

theorem first_of_isForeign (h : b.isForeign) : first b rest = stray b rest := by
  simp only [Byte.isForeign, Bool.not_eq_true', Bool.or_eq_false_iff, beq_eq_false_iff_ne] at h
  obtain ⟨⟨⟨⟨hblank, hword⟩, hdigit⟩, hquote⟩, hopens⟩ := h
  have hslash : b ≠ Byte.slash := by
    rintro rfl
    contradiction
  simp [first, hblank, hword, hdigit, hquote, hslash, Symbol.leading?_eq_none_iff.mpr hopens]

/-! ## The first segment is well formed -/

theorem spells_numeral (h : b.isDigit) : Shape.number.Spells (numeral (b :: rest)) := by
  have hne : (b :: rest).takeWhile Byte.isDigit ≠ [] := by simp [h]
  have hdigits : ∀ c ∈ (b :: rest).takeWhile Byte.isDigit, c.isDigit :=
    fun c hc => List.mem_takeWhile_imp hc
  unfold numeral
  fun_cases fraction ((b :: rest).dropWhile Byte.isDigit) with
  | case1 => simpa using Shape.Spells.whole hne hdigits
  | case2 c behind hdot =>
    obtain ⟨rfl, hbehind⟩ := hdot
    have hne' : behind.takeWhile Byte.isDigit ≠ [] := by
      cases behind <;> simp_all
    exact .fractional hne hdigits hne' fun c hc => List.mem_takeWhile_imp hc
  | case3 => simpa using Shape.Spells.whole hne hdigits

theorem commentLine_of_notMem {body : Bytes} (h : Byte.newline ∉ body) :
    commentLine body = body := by
  have hbody : ∀ c ∈ body, decide (c ≠ Byte.newline) = true := by grind
  rw [commentLine, List.takeWhile_eq_self_iff.mpr hbody, List.dropWhile_eq_nil_iff.mpr hbody]
  exact List.append_nil body

theorem commentLine_append_newline {body behind : Bytes} (h : Byte.newline ∉ body) :
    commentLine (body ++ Byte.newline :: behind) = body ++ [Byte.newline] := by
  have hbody : ∀ c ∈ body, decide (c ≠ Byte.newline) = true := by grind
  have hstop : ∀ c ∈ (Byte.newline :: behind).head?, decide (c ≠ Byte.newline) = false := by simp
  rw [commentLine, takeWhile_append_stop hbody hstop, dropWhile_append_stop hbody hstop]
  rfl

theorem spells_commentLine :
    Shape.comment.Spells (commentLine (Byte.slash :: Byte.slash :: rest)) := by
  rw [commentLine_slash_slash]
  by_cases h : Byte.newline ∈ rest
  · obtain ⟨body, behind, rfl, hbody⟩ := List.eq_append_cons_of_mem h
    rw [commentLine_append_newline hbody]
    exact .commentLine hbody
  · rw [commentLine_of_notMem h]
    exact .comment h

theorem formed_quoted : (quoted rest).Formed := by
  unfold quoted
  split
  · have hbody : Byte.quote ∉ rest.takeWhile (· ≠ Byte.quote) := fun h => by
      simpa using List.mem_takeWhile_imp h
    exact .spelled (.string hbody)
  · next h => exact .unclosed h

theorem formed_stray (h : b.isForeign) : (stray b rest).Formed := by
  unfold stray
  split
  · next hlead => exact .stray h (fun _ => hlead) fun c hc => List.mem_takeWhile_imp hc
  · exact .stray h (by simp) (by simp)

theorem formed_first : (first b rest).Formed := by
  fun_cases first b rest with
  | case1 h => exact .spelled (.blank h)
  | case2 _ h => exact .spelled (.word h fun c hc => List.mem_takeWhile_imp hc)
  | case3 _ _ h => exact .spelled (spells_numeral h)
  | case4 => exact formed_quoted
  | case5 _ _ _ _ h =>
    obtain ⟨rfl, hrest⟩ := h
    obtain ⟨behind, rfl⟩ := List.head?_eq_some_iff.mp hrest
    exact .spelled spells_commentLine
  | case6 _ _ _ _ _ s => exact .spelled (.symbol s)
  | case7 hblank hword hdigit hquote _ hnone =>
    refine formed_stray ?_
    simp [Byte.isForeign, hblank, hword, hdigit, hquote, Symbol.leading?_eq_none_iff.mp hnone]

end First

end Segment

end LoxLex
