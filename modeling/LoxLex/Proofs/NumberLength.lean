import LoxLex.Proofs.NumberFormat
import LoxLex.Token.Buffer

/-!
# How long numbers are as text

Seventeen digits are enough for every number, and no finite one is so great or so small that its
power of ten has four. So a number in scientific notation is short, and a number with all its
digits in their places is not longer, because otherwise it is not written so.

## Main statements

* `Decimal.value_bounds`: between which powers of ten a decimal lies.
* `Decimal.length_scientific_le`: how long a decimal is in scientific notation.
* `Binary64.length_shortest_le`: the shortest decimal of a finite magnitude in scientific notation.
* `Binary64.length_units_div_le`: a whole number written out.
* `Literal.length_number_le`: every number fits into the buffer.
-/

namespace LoxLex

namespace Decimal

variable {d : Decimal} {k : Nat}

/-- The power of ten of the first digit. -/
def magnitude (d : Decimal) : ℤ := d.exponent + ((Bytes.decimal d.significand).drop 1).length

/-- A decimal lies between the power of ten of its first digit and the next one. -/
theorem value_bounds (h : d.significand ≠ 0) :
    (10 : ℚ) ^ d.magnitude ≤ d.value ∧ d.value < 10 ^ (d.magnitude + 1) := by
  have hlength := List.length_pos_iff.mpr (Bytes.decimal_ne_nil d.significand)
  have hle : (10 : ℚ) ^ ((Bytes.decimal d.significand).length - 1) ≤ d.significand := by
    exact_mod_cast Bytes.pow_length_decimal_le h
  have hlt : (d.significand : ℚ) < 10 ^ (Bytes.decimal d.significand).length := by
    exact_mod_cast Bytes.lt_pow_length_decimal d.significand
  have hgrid : (0 : ℚ) < 10 ^ d.exponent := by positivity
  have hfirst : d.magnitude = ((Bytes.decimal d.significand).length - 1 : ℕ) + d.exponent := by
    rw [magnitude, List.length_drop, add_comm]
  have hnext : d.magnitude + 1 = ((Bytes.decimal d.significand).length : ℕ) + d.exponent := by
    omega
  rw [hnext, hfirst, zpow_add₀ (by norm_num), zpow_add₀ (by norm_num), zpow_natCast, zpow_natCast,
    value]
  exact ⟨mul_le_mul_of_nonneg_right hle hgrid.le, mul_lt_mul_of_pos_right hlt hgrid⟩

theorem length_padded_le {n : Nat} (hk : 2 ≤ k) (h : n < 10 ^ k) : (padded 2 n).length ≤ k := by
  rw [padded, List.length_leftpad]
  exact max_le hk ((Bytes.length_decimal_le_iff (by omega)).mpr h)

theorem length_powerText_le {e : ℤ} (hk : 2 ≤ k) (h : e.natAbs < 10 ^ k) :
    (powerText e).length ≤ 2 + k := by
  have hpadded := length_padded_le hk h
  have hsign : (if e < 0 then ascii "-" else ascii "+").length = 1 := by split <;> rfl
  have hmark : (ascii "e").length = 1 := rfl
  rw [powerText, List.length_append, List.length_append, hsign, hmark]
  omega

theorem length_ofParts_le (whole fraction : Bytes) :
    (Numeral.ofParts whole fraction).length ≤ whole.length + fraction.length + 1 := by
  unfold Numeral.ofParts
  split <;> grind

/-- In scientific notation a decimal has its digits, a dot, a mark, a sign and the digits of its
power of ten. -/
theorem length_scientific_le {count : Nat} (hcount : 0 < count) (h : d.significand < 10 ^ count)
    (hk : 2 ≤ k) (hmagnitude : d.magnitude.natAbs < 10 ^ k) :
    d.scientific.length ≤ count + 3 + k := by
  have hdigits := (Bytes.length_decimal_le_iff hcount).mpr h
  have hparts := length_ofParts_le ((Bytes.decimal d.significand).take 1)
    ((Bytes.decimal d.significand).drop 1)
  have hpower := length_powerText_le hk hmagnitude
  rw [← List.length_append, List.take_append_drop] at hparts
  rw [scientific_eq, List.length_append, ← magnitude]
  omega

theorem numerator_eq_value (h : 0 ≤ d.exponent) : (d.numerator : ℚ) = d.value := by
  rw [← numerator_div_denominator, denominator_eq_one h, Nat.cast_one, div_one]

theorem magnitude_lt_length_numerator (hne : d.significand ≠ 0) (h : 0 ≤ d.exponent) :
    d.magnitude < (Bytes.decimal d.numerator).length := by
  have hlt : (d.numerator : ℚ) < 10 ^ (Bytes.decimal d.numerator).length := by
    exact_mod_cast Bytes.lt_pow_length_decimal d.numerator
  rw [numerator_eq_value h, ← zpow_natCast] at hlt
  exact (zpow_lt_zpow_iff_right₀ (by norm_num)).mp ((value_bounds hne).1.trans_lt hlt)

end Decimal

namespace Binary64

variable {rank : Nat} {q : ℚ}

/-- What a number is rounded to is at most twice as great. -/
theorem units_rankOf_le (hq : 0 ≤ q) : (units (rankOf q) : ℚ) ≤ 2 * (q * unitsInOne) := by
  have hpos : 0 ≤ q * unitsInOne := mul_nonneg hq unitsInOne_pos.le
  have hclosest := (isNearest_rankOf hq).closest 0
  rw [units_zero, Nat.cast_zero, zero_sub, abs_neg, abs_of_nonneg hpos] at hclosest
  have habove := le_abs_self ((units (rankOf q) : ℚ) - q * unitsInOne)
  linarith

/-- Numbers between both ends of the range have a power of ten of three digits at most. -/
theorem natAbs_lt_of_bounds {e : ℤ} (hle : (10 : ℚ) ^ e ≤ q) (hlt : q < 10 ^ (e + 1))
    (hunder : underflow < q) (hover : q < overflow) : e.natAbs < 10 ^ 3 := by
  have hgreat : overflow ≤ (10 : ℚ) ^ (512 : ℤ) := by
    have hpow : (2 : ℚ) ^ 1024 ≤ 10 ^ 512 := by
      rw [show (2 : ℚ) ^ 1024 = (2 ^ 2) ^ 512 by rw [← pow_mul]]
      exact pow_le_pow_left₀ (by norm_num) (by norm_num) 512
    have hrest : (0 : ℚ) ≤ 2 ^ 970 := by positivity
    rw [show (512 : ℤ) = (512 : ℕ) from rfl, zpow_natCast, overflow]
    exact (sub_le_self _ hrest).trans hpow
  have hsmall : (10 : ℚ) ^ (-538 : ℤ) ≤ underflow := by
    have hpow : (2 : ℚ) ^ 1075 ≤ 10 ^ 538 := by
      calc (2 : ℚ) ^ 1075 ≤ 2 ^ 1076 := pow_le_pow_right₀ (by norm_num) (by decide)
        _ = (2 ^ 2) ^ 538 := by rw [← pow_mul]
        _ ≤ 10 ^ 538 := pow_le_pow_left₀ (by norm_num) (by norm_num) 538
    rw [show (-538 : ℤ) = -(538 : ℕ) from rfl, zpow_neg, zpow_natCast, underflow, one_div]
    exact inv_anti₀ (by positivity) hpow
  have habove : e < 512 := by
    rw [← zpow_lt_zpow_iff_right₀ (by norm_num : (1 : ℚ) < 10)]
    exact hle.trans_lt (hover.trans_le hgreat)
  have hbelow : -538 < e + 1 := by
    rw [← zpow_lt_zpow_iff_right₀ (by norm_num : (1 : ℚ) < 10)]
    exact hsmall.trans_lt (hunder.trans hlt)
  omega

section Shortest

variable (hrank : rank ≠ 0)
include hrank

theorem significand_shortest_lt : (shortest rank).significand < 10 ^ 17 := by
  obtain ⟨count, hpos, hcount, ⟨d, hmem, -, heq⟩, -⟩ := exists_shortest_eq hrank
  have hle := significand_le_of_mem_neighbours (units_ne_zero hrank) hmem
  rw [heq]
  exact (Decimal.significand_strip_lt hpos hle).trans_le (Nat.pow_le_pow_right (by decide) hcount)

theorem rankOf_value_shortest : rankOf (shortest rank).value = rank := by
  rw [← Decimal.nearestRank_eq]
  exact (isShortest_shortest hrank).reads

theorem significand_shortest_ne_zero : (shortest rank).significand ≠ 0 := by
  intro hzero
  have hread := rankOf_value_shortest hrank
  rw [Decimal.value, hzero, Nat.cast_zero, zero_mul, rankOf_zero] at hread
  exact hrank hread.symm

/-- In scientific notation no finite magnitude takes more than 23 bytes. -/
theorem length_shortest_le (hfinite : rank < infinityRank) :
    (shortest rank).scientific.length ≤ 23 := by
  have hnonneg := (shortest rank).value_nonneg
  have hread := rankOf_value_shortest hrank
  obtain ⟨hle, hlt⟩ := Decimal.value_bounds (significand_shortest_ne_zero hrank)
  have hunder : underflow < (shortest rank).value := by
    rw [← not_le, ← rankOf_eq_zero_iff hnonneg, hread]
    exact hrank
  have hover : (shortest rank).value < overflow := by
    rw [← not_le, overflow_le_iff hnonneg, hread, not_le]
    exact hfinite
  exact Decimal.length_scientific_le (by decide) (significand_shortest_lt hrank) (by decide)
    (natAbs_lt_of_bounds hle hlt hunder hover)

/-- A whole number with all its digits has at most one digit more than the shortest decimal has in
its places. -/
theorem length_units_div_le (he : 0 ≤ (shortest rank).exponent) :
    (Bytes.decimal (units rank / unitsInOne)).length ≤ (shortest rank).positional.length + 1 := by
  have hunits := units_rankOf_le (shortest rank).value_nonneg
  rw [rankOf_value_shortest hrank, ← Decimal.numerator_eq_value he] at hunits
  have hunits : units rank ≤ unitsInOne * (2 * (shortest rank).numerator) := by
    rw [mul_comm, mul_assoc]
    exact_mod_cast hunits
  have hdiv := Nat.div_le_of_le_mul hunits
  have hlt := Bytes.lt_pow_length_decimal (shortest rank).numerator
  rw [Decimal.positional, if_pos he, Bytes.length_decimal_le_iff (Nat.succ_pos _), Nat.pow_succ]
  omega

/-- A magnitude in its places is not longer than in scientific notation. It has then few digits, and
its power of ten has no more than two. -/
theorem length_formatMagnitude_le (hfinite : rank < infinityRank) :
    (formatMagnitude rank).length ≤ 23 := by
  have hscientific := length_shortest_le hrank hfinite
  unfold formatMagnitude
  dsimp only
  split
  · exact hscientific
  · next hlength =>
    split
    · next he =>
      have hne := significand_shortest_ne_zero hrank
      have hfew := Decimal.magnitude_lt_length_numerator hne he
      have hwhole := length_units_div_le hrank he
      have hpositional : (shortest rank).positional =
          Bytes.decimal (shortest rank).numerator := by rw [Decimal.positional, if_pos he]
      have hmagnitude : (shortest rank).magnitude.natAbs < 10 ^ 2 := by
        rw [← hpositional] at hfew
        unfold Decimal.magnitude at hfew ⊢
        omega
      have hshort := Decimal.length_scientific_le (by decide) (significand_shortest_lt hrank)
        le_rfl hmagnitude
      omega
    · omega

end Shortest

/-- No number takes more than 24 bytes. -/
theorem length_format_le (x : Binary64) : x.format.length ≤ 24 := by
  have hsign : (if x.isNegative then ascii "-" else []).length ≤ 1 := by
    split <;> decide
  have hbody : (if x.isNaN then ascii "nan" else if x.isInfinite then ascii "inf"
      else if x.rank = 0 then ascii "0" else formatMagnitude x.rank).length ≤ 23 := by
    split_ifs with hnan hinf hzero
    · decide
    · decide
    · decide
    · have hle := isNaN_eq_false_iff.mp (Bool.eq_false_iff.mpr hnan)
      have hfinite := hle.lt_of_ne fun heq => hinf (isInfinite_iff.mpr heq)
      exact length_formatMagnitude_le hzero hfinite
  rw [format, List.length_append]
  exact Nat.add_le_add hsign hbody

end Binary64

namespace Literal

/-- The text of a number takes 24 bytes at most, so that there is room for it in the buffer and it
is always written. -/
theorem length_number_le (x : Binary64) :
    (number x).format.length ≤ 24 ∧ (number x).write? = some (number x).format := by
  have hlength : x.format.length ≤ 24 := x.length_format_le
  have hroom : x.format.length ≤ bufferSize := hlength.trans (by decide)
  exact ⟨hlength, if_pos hroom⟩

/-- With its sign, this number takes all of them. -/
example : (number ⟨0x8010000000000000⟩).format = ascii "-2.2250738585072014e-308" := by
  decide +kernel

end Literal

end LoxLex
