import LoxLex.Proofs.Nearest
import LoxLex.Proofs.Spelling

/-!
# The value of a numeral

A numeral is read digit by digit: each digit counts for a tenth of what the one before it
counts for, and the last one before the dot counts ones.

## Main definitions

* `Numeral.value` — the rational number that a numeral denotes.
* `Decimal.value` — the rational number that a decimal is.

## Main statements

* `Decimal.value_ofNumeral`: a numeral denotes the decimal that is read from it.
* `Decimal.nearestRank_eq`: a decimal is rounded by its value.
-/

namespace LoxLex

/-! ## Digits by their places -/

/-- The value of digits of which the first counts for `weight` and each next for a tenth of the
one before it. -/
def Numeral.places (weight : ℚ) : Bytes → ℚ
  | [] => 0
  | b :: rest => b.digitValue * weight + places (weight / 10) rest

/-- The rational number that is written with at most one dot among its digits. -/
def Numeral.value (numeral : Bytes) : ℚ :=
  places (10 ^ (numeral.takeWhile (· ≠ Byte.dot)).length / 10) (numeral.filter (· ≠ Byte.dot))

/-- The rational number that a decimal is. -/
def Decimal.value (d : Decimal) : ℚ := d.significand * 10 ^ d.exponent

namespace Numeral

theorem places_concat (weight : ℚ) (digits : Bytes) (b : Byte) :
    places weight (digits ++ [b]) =
      places weight digits + b.digitValue * (weight / 10 ^ digits.length) := by
  induction digits generalizing weight with
  | nil => simp [places]
  | cons c digits ih =>
    rw [List.cons_append, places, places, ih, List.length_cons, div_div, ← pow_succ', add_assoc]

theorem places_eq_ofDecimal (weight : ℚ) (digits : Bytes) :
    places weight digits = Bytes.ofDecimal digits * (weight * 10 / 10 ^ digits.length) := by
  induction digits using List.reverseRecOn with
  | nil => simp [places]
  | append_singleton digits b ih =>
    rw [places_concat, ih, Bytes.ofDecimal_concat, List.length_append, List.length_singleton,
      pow_succ]
    push_cast
    field_simp

/-! ## Numerals with and without a dot -/

variable {digits fraction : Bytes}

theorem ne_dot_of_isDigit {b : Byte} (h : b.isDigit) : decide (b ≠ Byte.dot) = true := by
  rw [decide_eq_true_iff]
  rintro rfl
  cases h

theorem value_of_digits (h : ∀ c ∈ digits, c.isDigit) : value digits = Bytes.ofDecimal digits := by
  have hdot : ∀ c ∈ digits, decide (c ≠ Byte.dot) = true := fun c hc => ne_dot_of_isDigit (h c hc)
  rw [value, List.takeWhile_eq_self_iff.mpr hdot, List.filter_eq_self.mpr hdot,
    places_eq_ofDecimal, div_mul_cancel₀ _ (by norm_num), div_self (by positivity), mul_one]

theorem value_of_fraction (h : ∀ c ∈ digits, c.isDigit) (h' : ∀ c ∈ fraction, c.isDigit) :
    value (digits ++ Byte.dot :: fraction) =
      Bytes.ofDecimal (digits ++ fraction) / 10 ^ fraction.length := by
  have hdot : ∀ c ∈ digits, decide (c ≠ Byte.dot) = true := fun c hc => ne_dot_of_isDigit (h c hc)
  have hdot' : ∀ c ∈ fraction, decide (c ≠ Byte.dot) = true :=
    fun c hc => ne_dot_of_isDigit (h' c hc)
  have hstop : ∀ c ∈ (Byte.dot :: fraction).head?, decide (c ≠ Byte.dot) = false := by simp
  rw [value, takeWhile_append_stop hdot hstop, List.filter_append, List.filter_eq_self.mpr hdot,
    List.filter_cons_of_neg (by simp), List.filter_eq_self.mpr hdot', places_eq_ofDecimal,
    List.length_append, pow_add]
  field_simp

end Numeral

namespace Decimal

variable {numeral : Bytes} {d : Decimal}

/-- A numeral denotes the decimal that is read from it. -/
theorem value_ofNumeral (h : Shape.number.Spells numeral) :
    (ofNumeral numeral).value = Numeral.value numeral := by
  cases h with
  | whole hne hdigits =>
    have hdot : ∀ c ∈ numeral, decide (c ≠ Byte.dot) = true :=
      fun c hc => Numeral.ne_dot_of_isDigit (hdigits c hc)
    have hread : ofNumeral numeral = ⟨Bytes.ofDecimal numeral, 0⟩ := by
      rw [ofNumeral, List.takeWhile_eq_self_iff.mpr hdot, List.dropWhile_eq_nil_iff.mpr hdot]
      simp
    rw [hread, value, Numeral.value_of_digits hdigits, zpow_zero, mul_one]
  | @fractional digits fraction hne hdigits hne' hfraction =>
    have hdot : ∀ c ∈ digits, decide (c ≠ Byte.dot) = true :=
      fun c hc => Numeral.ne_dot_of_isDigit (hdigits c hc)
    have hstop : ∀ c ∈ (Byte.dot :: fraction).head?, decide (c ≠ Byte.dot) = false := by simp
    have hread : ofNumeral (digits ++ Byte.dot :: fraction) =
        ⟨Bytes.ofDecimal (digits ++ fraction), -fraction.length⟩ := by
      rw [ofNumeral, takeWhile_append_stop hdot hstop, dropWhile_append_stop hdot hstop]
      rfl
    rw [hread, value, Numeral.value_of_fraction hdigits hfraction, zpow_neg, zpow_natCast,
      div_eq_mul_inv]

theorem denominator_pos (d : Decimal) : 0 < d.denominator := Nat.pow_pos (by decide)

theorem denominator_eq_one (h : 0 ≤ d.exponent) : d.denominator = 1 := by
  rw [denominator, show (-d.exponent).toNat = 0 by omega, Nat.pow_eq, Nat.pow_zero]

theorem numerator_div_denominator (d : Decimal) :
    (d.numerator : ℚ) / d.denominator = d.value := by
  unfold numerator denominator value
  rw [Nat.pow_eq, Nat.pow_eq]
  push_cast
  rw [mul_div_assoc, ← zpow_natCast, ← zpow_natCast, ← zpow_sub₀ (by norm_num)]
  congr 2
  omega

theorem value_nonneg (d : Decimal) : 0 ≤ d.value := by
  unfold value
  positivity

/-- A decimal is rounded by its value. -/
theorem nearestRank_eq (d : Decimal) : d.nearestRank = Binary64.rankOf d.value := by
  rw [nearestRank, Binary64.nearestRank_eq_rankOf _ d.denominator_pos, numerator_div_denominator]

end Decimal

end LoxLex
