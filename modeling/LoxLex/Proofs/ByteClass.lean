import LoxLex.Bytes

/-!
# Classes of bytes

The classes by the values of their bytes. No two of blanks, word starts and digits share a
byte, so the first byte of a text tells which of them is read.
-/

namespace LoxLex

namespace Byte

variable {b : Byte}

theorem isDigit_iff : b.isDigit ↔ 48 ≤ b.toNat ∧ b.toNat ≤ 57 := by
  simp [isDigit, UInt8.le_iff_toNat_le, Char.toUInt8]

theorem isWordStart_iff : b.isWordStart ↔
    97 ≤ b.toNat ∧ b.toNat ≤ 122 ∨ 65 ≤ b.toNat ∧ b.toNat ≤ 90 ∨ b.toNat = 95 := by
  simp [isWordStart, UInt8.le_iff_toNat_le, ← UInt8.toNat_inj, Char.toUInt8, or_assoc]

theorem isWordPart_iff : b.isWordPart ↔ 97 ≤ b.toNat ∧ b.toNat ≤ 122 ∨
    65 ≤ b.toNat ∧ b.toNat ≤ 90 ∨ b.toNat = 95 ∨ 48 ≤ b.toNat ∧ b.toNat ≤ 57 := by
  simp [isWordPart, isWordStart_iff, isDigit_iff, or_assoc]

theorem isBlank_iff : b.isBlank ↔
    b.toNat = 32 ∨ b.toNat = 9 ∨ b.toNat = 13 ∨ b.toNat = 10 := by
  simp [isBlank, carriageReturn, newline, ← UInt8.toNat_inj, Char.toUInt8, or_assoc]

theorem isContinuation_iff : b.isContinuation ↔ 128 ≤ b.toNat ∧ b.toNat < 192 := by
  simp [isContinuation, UInt8.le_iff_toNat_le, UInt8.lt_iff_toNat_lt]

theorem isLead_iff : b.isLead ↔ 192 ≤ b.toNat := by
  simp [isLead, UInt8.le_iff_toNat_le]

/-! ## Disjoint classes -/

theorem isBlank_eq_false_of_isWordStart (h : b.isWordStart) : b.isBlank = false := by
  have := isWordStart_iff.mp h
  simp only [← Bool.not_eq_true, isBlank_iff]
  omega

theorem isBlank_eq_false_of_isDigit (h : b.isDigit) : b.isBlank = false := by
  have := isDigit_iff.mp h
  simp only [← Bool.not_eq_true, isBlank_iff]
  omega

theorem isWordStart_eq_false_of_isDigit (h : b.isDigit) : b.isWordStart = false := by
  have := isDigit_iff.mp h
  simp only [← Bool.not_eq_true, isWordStart_iff]
  omega

theorem isWordPart_eq_false_of_isBlank (h : b.isBlank) : b.isWordPart = false := by
  have := isBlank_iff.mp h
  simp only [← Bool.not_eq_true, isWordPart_iff]
  omega

theorem isDigit_eq_false_of_isBlank (h : b.isBlank) : b.isDigit = false := by
  have := isBlank_iff.mp h
  simp only [← Bool.not_eq_true, isDigit_iff]
  omega

theorem isContinuation_eq_false_of_isBlank (h : b.isBlank) : b.isContinuation = false := by
  have := isBlank_iff.mp h
  simp only [← Bool.not_eq_true, isContinuation_iff]
  omega

/-- A character tells the byte that it was made of. -/
theorem eq_toUInt8_of_ofUInt8 {c : Char} (h : Char.ofUInt8 b = c) : b = c.toUInt8 := by
  subst h
  exact b.toUInt8_toUInt32.symm

@[simp] theorem isDigit_dot : dot.isDigit = false := by decide

end Byte

end LoxLex
