import Mathlib.Algebra.Order.Field.Power
import Mathlib.Algebra.Order.Ring.Rat
import Mathlib.Algebra.Ring.Parity
import Mathlib.Order.Monotone.Basic
import Mathlib.Tactic.FieldSimp
import Mathlib.Tactic.Positivity
import Mathlib.Tactic.Ring
import LoxLex.Number.Binary64

/-!
# Ranks and values

A pattern read field by field, as a sign, a significand and an exponent, has a rational value.
The rank of a pattern tells its magnitude as well: magnitudes grow with their ranks, and from
each to the next by one unit in the last place.

## Main definitions

* `Binary64.significand`, `Binary64.exponent`, `Binary64.value` — a pattern by its fields.
* `Binary64.ofRank` — the pattern with a given sign and rank.

## Main statements

* `Binary64.units_succ`: how far a magnitude is from the next.
* `Binary64.magnitude_eq_units`: the magnitude of a pattern is that of its rank.
-/

namespace LoxLex.Binary64

/-! ## Magnitudes by rank -/

theorem binade_pos : 0 < binade := by decide

/-- The rank that is `n` beyond the first of the ranks spaced `2 ^ shift` units apart. -/
theorem units_shift {shift n : Nat} (hn : n ≤ 2 * binade) (h : shift = 0 ∨ binade ≤ n) :
    units (shift * binade + n) = n * 2 ^ shift := by
  rcases Nat.lt_or_ge n binade with hlt | hge
  · obtain rfl : shift = 0 := h.resolve_right (by omega)
    simp [units, hlt]
  · obtain ⟨f, rfl⟩ := Nat.exists_eq_add_of_le hge
    have hrank : shift * binade + (binade + f) = f + (shift + 1) * binade := by ring
    have hle : ¬ f + (shift + 1) * binade < binade := by
      have := Nat.le_mul_of_pos_left binade (Nat.succ_pos shift)
      omega
    rw [hrank, units, if_neg hle, Nat.add_mul_mod_self_right, Nat.add_mul_div_right _ _ binade_pos]
    rcases Nat.lt_or_ge f binade with hf | hf
    · rw [Nat.mod_eq_of_lt hf, Nat.div_eq_of_lt hf, Nat.zero_add, Nat.add_sub_cancel]
      rfl
    · obtain rfl : f = binade := by omega
      rw [Nat.mod_self, Nat.div_self binade_pos, Nat.add_comm 1, Nat.add_sub_cancel, Nat.pow_eq,
        Nat.pow_succ]
      ring

/-- Every rank lies in a binade or below the first. -/
theorem exists_shift (rank : Nat) : ∃ n, rank = (rank / binade - 1) * binade + n ∧
    n < 2 * binade ∧ (rank / binade - 1 = 0 ∨ binade ≤ n) := by
  have hmod := Nat.mod_lt rank binade_pos
  have hrank := Nat.div_add_mod' rank binade
  rcases hq : rank / binade with _ | q
  · refine ⟨rank, by simp, ?_, .inl rfl⟩
    rw [hq] at hrank
    omega
  · refine ⟨binade + rank % binade, ?_, by omega, .inr (by omega)⟩
    rw [hq, Nat.succ_mul] at hrank
    rw [Nat.add_sub_cancel]
    omega

/-- A magnitude and the next are a unit in the last place apart. -/
theorem units_succ (rank : Nat) : units (rank + 1) = units rank + 2 ^ (rank / binade - 1) := by
  obtain ⟨n, hrank, hn, h⟩ := exists_shift rank
  have hthis := units_shift hn.le h
  have hnext := units_shift (n := n + 1) hn (h.imp_right (by omega))
  rw [← hrank] at hthis
  rw [← Nat.add_assoc, ← hrank] at hnext
  rw [hthis, hnext, Nat.succ_mul]

theorem units_strictMono : StrictMono units := by
  refine strictMono_nat_of_lt_succ fun rank => ?_
  rw [units_succ]
  exact Nat.lt_add_of_pos_right (Nat.two_pow_pos _)

@[simp] theorem units_zero : units 0 = 0 := rfl

theorem units_ne_zero {rank : Nat} (h : rank ≠ 0) : units rank ≠ 0 :=
  (units_strictMono (Nat.pos_of_ne_zero h)).ne'

/-- A magnitude has fewer than `2 ^ 53` of its units in the last place. -/
theorem units_lt_ulp (rank : Nat) : units rank < 2 * binade * 2 ^ (rank / binade - 1) := by
  obtain ⟨n, hrank, hn, h⟩ := exists_shift rank
  have hthis := units_shift hn.le h
  rw [← hrank] at hthis
  rw [hthis]
  exact Nat.mul_lt_mul_of_pos_right hn (Nat.two_pow_pos _)

/-! ## Patterns by sign and rank -/

/-- The pattern with the given sign and rank. -/
def ofRank (negative : Bool) (rank : Nat) : Binary64 :=
  ⟨((if negative then signBit else 0) + rank).toUInt64⟩

def isFinite (x : Binary64) : Bool := x.rank < infinityRank

variable {x y : Binary64}

theorem infinityRank_lt_signBit : infinityRank < signBit := by decide

theorem rank_lt_signBit (x : Binary64) : x.rank < signBit := Nat.mod_lt _ (by decide)

theorem toNat_bits (x : Binary64) :
    x.bits.toNat = (if x.isNegative then signBit else 0) + x.rank := by
  have hbits : x.bits.toNat < 2 * signBit := x.bits.toNat_lt
  unfold isNegative rank
  by_cases h : signBit ≤ x.bits.toNat
  · rw [if_pos (by simpa using h), Nat.mod_eq_sub_mod h, Nat.mod_eq_of_lt (by omega)]
    omega
  · rw [if_neg (by simpa using h), Nat.mod_eq_of_lt (by omega), Nat.zero_add]

theorem eq_of_rank_eq (hsign : x.isNegative = y.isNegative) (hrank : x.rank = y.rank) : x = y := by
  have hx := x.toNat_bits
  rw [hsign, hrank, ← y.toNat_bits] at hx
  obtain ⟨a⟩ := x
  obtain ⟨b⟩ := y
  exact congrArg mk (UInt64.toNat_inj.mp hx)

section OfRank

variable {negative : Bool} {r : Nat}

theorem toNat_bits_ofRank (h : r < signBit) :
    (ofRank negative r).bits.toNat = (if negative then signBit else 0) + r := by
  have hsize : UInt64.size = signBit + signBit := rfl
  refine Nat.mod_eq_of_lt ?_
  rw [show 2 ^ 64 = signBit + signBit from rfl]
  cases negative
  · simp only [Bool.false_eq_true, if_false]
    omega
  · simp only [if_true]
    omega

theorem rank_ofRank (h : r < signBit) : (ofRank negative r).rank = r := by
  rw [rank, toNat_bits_ofRank h]
  cases negative
  · simpa using Nat.mod_eq_of_lt h
  · simpa using Nat.mod_eq_of_lt h

theorem isNegative_ofRank (h : r < signBit) : (ofRank negative r).isNegative = negative := by
  rw [isNegative, toNat_bits_ofRank h]
  cases negative
  · simpa using h
  · simp

end OfRank

/-! ## Values -/

/-- The exponent as it is written into a pattern. -/
def exponentField (x : Binary64) : Nat := x.rank / binade

/-- The digits of a number, as a whole number: those of the fraction, and a one before them
unless the exponent is written as zero. -/
def significand (x : Binary64) : Nat :=
  if x.exponentField = 0 then x.rank % binade else binade + x.rank % binade

/-- The power of two that the significand is taken times. -/
def exponent (x : Binary64) : Int := max 1 x.exponentField - 1075

def magnitude (x : Binary64) : ℚ := x.significand * 2 ^ x.exponent

/-- The rational number that a finite pattern stands for. -/
def value (x : Binary64) : ℚ := if x.isNegative then -x.magnitude else x.magnitude

theorem cast_two_pow (k : Nat) : (Nat.pow 2 k : ℚ) = 2 ^ k := by
  rw [Nat.pow_eq, Nat.cast_pow, Nat.cast_ofNat]

theorem cast_unitsInOne : (unitsInOne : ℚ) = 2 ^ 1074 := by
  unfold unitsInOne
  generalize 1074 = k
  exact cast_two_pow k

theorem unitsInOne_pos : (0 : ℚ) < unitsInOne := by
  rw [cast_unitsInOne]
  positivity

theorem div_unitsInOne_nonneg (u : Nat) : (0 : ℚ) ≤ u / unitsInOne :=
  div_nonneg (Nat.cast_nonneg _) unitsInOne_pos.le

theorem magnitude_eq_units (x : Binary64) : x.magnitude = units x.rank / unitsInOne := by
  have hpow : ∀ k : ℕ, (2 : ℚ) ^ (((k + 1 : ℕ) : ℤ) - 1075) = 2 ^ k / unitsInOne := by
    intro k
    rw [cast_unitsInOne, show ((k + 1 : ℕ) : ℤ) - 1075 = (k : ℤ) - (1074 : ℕ) by omega,
      zpow_sub₀ two_ne_zero, zpow_natCast, zpow_natCast]
  unfold magnitude significand exponent exponentField units
  by_cases h : x.rank < binade
  · rw [Nat.div_eq_of_lt h, if_pos rfl, if_pos h, Nat.mod_eq_of_lt h,
      show max 1 0 = 0 + 1 from rfl, hpow, pow_zero, mul_one_div]
  · obtain ⟨k, hk⟩ : ∃ k, x.rank / binade = k + 1 :=
      Nat.exists_eq_succ_of_ne_zero (Nat.div_pos (Nat.le_of_not_lt h) binade_pos).ne'
    rw [if_neg h, hk, if_neg (Nat.succ_ne_zero k), Nat.add_sub_cancel, Nat.pow_eq,
      show max 1 (k + 1) = k + 1 by omega, hpow, mul_div_assoc', Nat.cast_mul, Nat.cast_pow,
      Nat.cast_ofNat]

theorem magnitude_nonneg (x : Binary64) : 0 ≤ x.magnitude := by
  rw [magnitude_eq_units]
  exact div_unitsInOne_nonneg _

theorem abs_value (x : Binary64) : |x.value| = x.magnitude := by
  unfold value
  split
  · rw [abs_neg, abs_of_nonneg x.magnitude_nonneg]
  · exact abs_of_nonneg x.magnitude_nonneg

theorem even_significand_iff (x : Binary64) : Even x.significand ↔ Even x.rank := by
  have hbinade : Even binade := ⟨2 ^ 51, rfl⟩
  have hmod : Even (x.rank % binade) ↔ Even x.rank := by
    rw [Nat.even_iff, Nat.mod_mod_of_dvd _ (even_iff_two_dvd.mp hbinade), ← Nat.even_iff]
  unfold significand
  split
  · exact hmod
  · rw [Nat.even_add, hmod]
    simp [hbinade]

end LoxLex.Binary64
