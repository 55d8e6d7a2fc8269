import Mathlib.Data.List.Basic
import LoxLex.Proofs.ByteClass

/-!
# Texts in UTF-8

A text in UTF-8 is told by its code points. In it every byte that is no continuation byte begins
a code point, and an ASCII byte ends one as well, so the text comes apart there.

## Main definitions

* `Bytes.ofChars`, `Bytes.IsUtf8` — code points as a text, and the texts that come from them.
* `Bytes.charOffsets` — code points with the offsets at which they stand.
* `Bytes.IsBoundary` — the offsets between code points.

## Main statements

* `Bytes.exists_ofChars_of_append`, `Bytes.exists_ofChars_of_getLast?` — where a text comes apart.
-/

namespace LoxLex.Bytes

/-- Code points in UTF-8. -/
def ofChars (chars : List Char) : Bytes := chars.flatMap String.utf8EncodeChar

/-- Whether a text is valid UTF-8. Surrogates and numbers above the last code point are no
characters, and each character has one encoding. -/
def IsUtf8 (text : Bytes) : Prop := ∃ chars, text = ofChars chars

/-- Whether the offset `n` of a text lies between two code points or at an end. -/
def IsBoundary (text : Bytes) (n : Nat) : Prop :=
  ∃ before behind, text = ofChars before ++ ofChars behind ∧ n = (ofChars before).length

/-- Code points with their offsets; the first of them stands at `n`. -/
def charOffsets : Nat → List Char → List (Nat × Char)
  | _, [] => []
  | n, c :: rest => (n, c) :: charOffsets (n + c.utf8Size) rest

@[simp] theorem ofChars_nil : ofChars [] = [] := rfl

@[simp] theorem ofChars_cons (c : Char) (chars : List Char) :
    ofChars (c :: chars) = String.utf8EncodeChar c ++ ofChars chars := rfl

@[simp] theorem ofChars_append (chars more : List Char) :
    ofChars (chars ++ more) = ofChars chars ++ ofChars more := List.flatMap_append

theorem isUtf8_ofChars (chars : List Char) : (ofChars chars).IsUtf8 := ⟨chars, rfl⟩

theorem IsUtf8.append {text tail : Bytes} (h : text.IsUtf8) (htail : tail.IsUtf8) :
    IsUtf8 (text ++ tail) := by
  obtain ⟨chars, rfl⟩ := h
  obtain ⟨more, rfl⟩ := htail
  exact ⟨chars ++ more, (ofChars_append chars more).symm⟩

theorem charOffsets_append (n : Nat) (chars more : List Char) : charOffsets n (chars ++ more) =
    charOffsets n chars ++ charOffsets (n + (ofChars chars).length) more := by
  induction chars generalizing n with
  | nil => rfl
  | cons c chars ih =>
    simp only [List.cons_append, charOffsets, ih, ofChars_cons, List.length_append,
      String.length_utf8EncodeChar, Nat.add_assoc]

/-- A code point of a stretch of text lies within the stretch. -/
theorem bounds_of_mem_charOffsets {n : Nat} {chars : List Char} {a : Nat × Char}
    (h : a ∈ charOffsets n chars) :
    n ≤ a.1 ∧ a.1 + a.2.utf8Size ≤ n + (ofChars chars).length := by
  induction chars generalizing n with
  | nil => cases h
  | cons c chars ih =>
    rw [ofChars_cons, List.length_append, String.length_utf8EncodeChar]
    rcases List.mem_cons.mp h with rfl | h
    · exact ⟨Nat.le_refl _, Nat.add_le_add_left (Nat.le_add_right _ _) _⟩
    · have := ih h
      omega

/-! ## One code point -/

theorem isContinuation_ofNat (n : Nat) :
    Byte.isContinuation (UInt8.ofNat (n % 0x40 + 0x80)) := by
  rw [Byte.isContinuation_iff, UInt8.toNat_ofNat']
  omega

/-- A code point is an ASCII byte, or a lead byte and continuation bytes. -/
theorem exists_utf8EncodeChar_eq (c : Char) : ∃ (b : Byte) (run : Bytes),
    String.utf8EncodeChar c = b :: run ∧
      (b.toNat < 128 ∧ run = [] ∨ b.isLead ∧ ∀ d ∈ run, d.isContinuation) := by
  have hlead : ∀ n k, 192 ≤ k → n + k < 256 → Byte.isLead (UInt8.ofNat (n + k)) := by
    intro n k hk hlt
    rw [Byte.isLead_iff, UInt8.toNat_ofNat']
    omega
  fun_cases String.utf8EncodeChar c with
  | case1 =>
    refine ⟨_, _, rfl, .inl ⟨?_, rfl⟩⟩
    rw [UInt8.toNat_ofNat']
    omega
  | _ =>
    refine ⟨_, _, rfl, .inr ⟨hlead _ _ (by decide) (by omega), ?_⟩⟩
    simp only [List.forall_mem_cons, isContinuation_ofNat, true_and]
    exact List.forall_mem_nil _

theorem eq_nil_of_ofChars_eq_nil {chars : List Char} (h : ofChars chars = []) : chars = [] := by
  cases chars with
  | nil => rfl
  | cons c chars =>
    obtain ⟨b, run, heq, -⟩ := exists_utf8EncodeChar_eq c
    rw [ofChars_cons, heq] at h
    cases h

/-- No code point begins with a continuation byte. -/
theorem head?_ofChars {chars : List Char} :
    ∀ b ∈ (ofChars chars).head?, b.isContinuation = false := by
  cases chars with
  | nil => simp
  | cons c chars =>
    obtain ⟨b, run, heq, hb⟩ := exists_utf8EncodeChar_eq c
    rw [ofChars_cons, heq]
    intro d hd
    obtain rfl : b = d := Option.some.inj hd
    rw [← Bool.not_eq_true, Byte.isContinuation_iff]
    rcases hb with ⟨hascii, -⟩ | ⟨hlead, -⟩
    · omega
    · have := Byte.isLead_iff.mp hlead
      omega

/-! ## Where a text comes apart -/

variable {text tail : Bytes} {chars : List Char}

/-- A byte that is no continuation byte begins a code point. -/
theorem exists_ofChars_of_append (h : text ++ tail = ofChars chars)
    (hstop : ∀ b ∈ tail.head?, b.isContinuation = false) :
    ∃ before behind, chars = before ++ behind ∧ text = ofChars before ∧ tail = ofChars behind := by
  induction chars generalizing text with
  | nil =>
    obtain ⟨rfl, rfl⟩ := List.append_eq_nil_iff.mp h
    exact ⟨[], [], rfl, rfl, rfl⟩
  | cons c chars ih =>
    obtain ⟨b, run, heq, hb⟩ := exists_utf8EncodeChar_eq c
    cases text with
    | nil => exact ⟨[], c :: chars, rfl, rfl, h⟩
    | cons x text =>
      rw [ofChars_cons, heq, List.cons_append, List.cons_append, List.cons.injEq] at h
      obtain ⟨rfl, h⟩ := h
      rcases List.append_eq_append_iff.mp h with ⟨more, rfl, hmore⟩ | ⟨more, rfl, hmore⟩
      · cases more with
        | nil =>
          refine ⟨[c], chars, rfl, ?_, hmore⟩
          simpa using heq.symm
        | cons d more =>
          -- the tail would begin within the code point
          rcases hb with ⟨-, hnil⟩ | ⟨-, hrun⟩
          · simp at hnil
          · have hd := hstop d (by simp [hmore])
            rw [hrun d (by simp)] at hd
            cases hd
      · obtain ⟨before, behind, rfl, rfl, rfl⟩ := ih hmore.symm
        refine ⟨c :: before, behind, rfl, ?_, rfl⟩
        rw [ofChars_cons, heq, List.cons_append]

/-- An ASCII byte is a code point. -/
theorem exists_ofChars_of_cons {b : Byte} (h : b :: tail = ofChars chars) (hb : b.toNat < 128) :
    ∃ c more, chars = c :: more ∧ String.utf8EncodeChar c = [b] ∧ tail = ofChars more := by
  cases chars with
  | nil => cases h
  | cons c chars =>
    obtain ⟨d, run, heq, hd⟩ := exists_utf8EncodeChar_eq c
    rw [ofChars_cons, heq, List.cons_append, List.cons.injEq] at h
    obtain ⟨rfl, rfl⟩ := h
    rcases hd with ⟨-, rfl⟩ | ⟨hlead, -⟩
    · exact ⟨c, chars, rfl, heq, rfl⟩
    · have := Byte.isLead_iff.mp hlead
      omega

/-- An ASCII byte ends a code point. -/
theorem exists_ofChars_of_getLast? {b : Byte} (h : text ++ tail = ofChars chars)
    (hlast : text.getLast? = some b) (hb : b.toNat < 128) :
    ∃ before behind, chars = before ++ behind ∧ text = ofChars before ∧ tail = ofChars behind := by
  obtain ⟨init, rfl⟩ := List.getLast?_eq_some_iff.mp hlast
  have hstop : ∀ d ∈ ([b] ++ tail).head?, d.isContinuation = false := by
    intro d hd
    obtain rfl : b = d := Option.some.inj hd
    rw [← Bool.not_eq_true, Byte.isContinuation_iff]
    omega
  rw [List.append_assoc] at h
  obtain ⟨before, behind, rfl, rfl, hbehind⟩ := exists_ofChars_of_append h hstop
  obtain ⟨c, behind, rfl, hc, htail⟩ := exists_ofChars_of_cons hbehind hb
  exact ⟨before ++ [c], behind, by simp, by simp [hc], htail⟩

end LoxLex.Bytes
