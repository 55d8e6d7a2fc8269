import Mathlib.Data.Nat.Cast.Field
import LoxLex.Token.Basic
import LoxLex.Proofs.ShortestDecimal

/-!
# Numbers as text

The text of a number that is not a NaN reads back as the number itself. Where it is not a whole
number written out, it has no more digits than any decimal that is rounded to the number.

## Main definitions

* `Binary64.Reads` — the texts that are read as a pattern.

## Main statements

* `Binary64.Reads.unique`: a text is read as one pattern at most.
* `Literal.format_roundTrips`: the text of a number is read as this number and as no other.
-/

namespace LoxLex

namespace Binary64

/-! ## Magnitudes -/

section Magnitude

variable {rank : Nat}

/-- A magnitude that a whole decimal reads back as is a whole number. -/
theorem IsShortest.unitsInOne_dvd {d : Decimal} (h : IsShortest rank d) (he : 0 ≤ d.exponent) :
    unitsInOne ∣ units rank := by
  have hread := h.reads
  rw [Decimal.nearestRank, Decimal.denominator_eq_one he] at hread
  exact hread ▸ unitsInOne_dvd_units_nearestRank d.numerator

/-- The text of a magnitude denotes a number that is rounded to it. -/
theorem exists_denotes_formatMagnitude (hrank : rank ≠ 0) :
    ∃ q, 0 ≤ q ∧ Numeral.Denotes (formatMagnitude rank) q ∧ rankOf q = rank := by
  have hshortest := isShortest_shortest hrank
  have hread := hshortest.reads
  rw [Decimal.nearestRank_eq] at hread
  unfold formatMagnitude
  dsimp only
  split
  · exact ⟨_, Decimal.value_nonneg _, Decimal.denotes_scientific _, hread⟩
  · split
    · next he =>
      refine ⟨_, Nat.cast_nonneg _, Numeral.denotes_decimal _, ?_⟩
      rw [Nat.cast_div (hshortest.unitsInOne_dvd he) unitsInOne_pos.ne']
      exact rankOf_units rank
    · next he =>
      exact ⟨_, Decimal.value_nonneg _, Decimal.denotes_positional (not_le.mp he), hread⟩

/-- A text with a mark or a dot has no more digits than any decimal that is rounded to the
magnitude. -/
theorem length_significant_formatMagnitude (hrank : rank ≠ 0)
    (hmark : Numeral.mark ∈ formatMagnitude rank ∨ Byte.dot ∈ formatMagnitude rank) {n k : Nat}
    {e : ℤ} (hn : n < 10 ^ k) (h : rankOf (n * 10 ^ e) = rank) :
    (Numeral.significant (formatMagnitude rank)).length ≤ k := by
  have hlt := (isShortest_shortest hrank).fewest n k e hn h
  unfold formatMagnitude at hmark ⊢
  dsimp only at hmark ⊢
  split at hmark
  · next hlength =>
    rw [if_pos hlength]
    exact Decimal.length_significant_scientific hlt
  · next hlength =>
    rw [if_neg hlength]
    split at hmark
    · have hdigits := Bytes.isDigit_of_mem_decimal (units rank / unitsInOne)
      rcases hmark with hmark | hmark
      · exact absurd rfl (Numeral.ne_mark_of_isDigit (hdigits _ hmark))
      · exact absurd (hdigits _ hmark) (by decide)
    · next he =>
      rw [if_neg he]
      exact Decimal.length_significant_positional (not_le.mp he) hlt

end Magnitude

/-! ## Reading texts -/

/-- What stands before a magnitude. -/
def signText (negative : Bool) : Bytes := if negative then ascii "-" else []

/-- The texts that are read as a pattern: a sign if it is negative, and the word for infinity or
a numeral whose value is rounded to it. -/
inductive Reads : Bytes → Binary64 → Prop where
  | infinite {x : Binary64} (h : x.isInfinite) : Reads (signText x.isNegative ++ ascii "inf") x
  | rounded {x : Binary64} {body : Bytes} {q : ℚ} (hbody : Numeral.Denotes body q)
      (h : RoundsTo (signed x.isNegative q) x) : Reads (signText x.isNegative ++ body) x

section Reads

variable {x y : Binary64} {text : Bytes} {q : ℚ}

theorem signText_append_inj {negative negative' : Bool} {body body' : Bytes}
    (hbody : ∀ c ∈ body.head?, c ≠ '-'.toUInt8) (hbody' : ∀ c ∈ body'.head?, c ≠ '-'.toUInt8)
    (h : signText negative ++ body = signText negative' ++ body') :
    negative = negative' ∧ body = body' := by
  cases negative <;> cases negative'
  · exact ⟨rfl, h⟩
  · obtain rfl : body = '-'.toUInt8 :: body' := h
    exact absurd rfl (hbody _ rfl)
  · obtain rfl : '-'.toUInt8 :: body = body' := h
    exact absurd rfl (hbody' _ rfl)
  · exact ⟨rfl, (List.cons.inj h).2⟩

theorem ne_minus_of_denotes (h : Numeral.Denotes text q) :
    ∀ c ∈ text.head?, c ≠ '-'.toUInt8 := by
  obtain ⟨b, rest, rfl, hb⟩ := h.exists_cons
  rintro c hc rfl
  obtain rfl : b = _ := Option.some.inj hc
  cases hb

theorem ne_inf_of_denotes (h : Numeral.Denotes text q) : text ≠ ascii "inf" := by
  obtain ⟨b, rest, rfl, hb⟩ := h.exists_cons
  intro heq
  obtain rfl := (List.cons.inj heq).1
  cases hb

theorem Reads.unique (h : Reads text x) (h' : Reads text y) : x = y := by
  have hinf : ∀ c ∈ (ascii "inf").head?, c ≠ '-'.toUInt8 := by
    rintro c ⟨⟩
    decide
  generalize htext : text = text' at h'
  cases h with
  | infinite hx =>
    cases h' with
    | infinite hy =>
      obtain ⟨hsign, -⟩ := signText_append_inj hinf hinf htext
      exact eq_of_rank_eq hsign ((isInfinite_iff.mp hx).trans (isInfinite_iff.mp hy).symm)
    | rounded hbody hy =>
      obtain ⟨-, heq⟩ := signText_append_inj hinf (ne_minus_of_denotes hbody) htext
      exact absurd heq.symm (ne_inf_of_denotes hbody)
  | rounded hbody hx =>
    cases h' with
    | infinite hy =>
      obtain ⟨-, heq⟩ := signText_append_inj (ne_minus_of_denotes hbody) hinf htext
      exact absurd heq (ne_inf_of_denotes hbody)
    | rounded hbody' hy =>
      obtain ⟨hsign, rfl⟩ :=
        signText_append_inj (ne_minus_of_denotes hbody) (ne_minus_of_denotes hbody') htext
      have hx := hx.rank_eq
      have hy := hy.rank_eq
      rw [abs_signed] at hx hy
      rw [hbody'.unique hbody] at hy
      exact eq_of_rank_eq hsign (hx.trans hy.symm)

theorem isNaN_eq_false_iff : x.isNaN = false ↔ x.rank ≤ infinityRank := by
  rw [isNaN, decide_eq_false_iff_not, not_lt]

theorem format_eq (hx : x.isNaN = false) : x.format = signText x.isNegative ++
    if x.isInfinite then ascii "inf" else if x.rank = 0 then ascii "0"
    else formatMagnitude x.rank := by
  simp only [format, signText, hx, Bool.false_eq_true, if_false]

/-- Whatever is not a NaN has a text that is read as it. -/
theorem reads_format (hx : x.isNaN = false) : Reads x.format x := by
  rw [format_eq hx]
  split
  · next hinf => exact .infinite hinf
  · split
    · next hzero =>
      have hrank : x.rank = min (rankOf 0) infinityRank := by
        rw [hzero, rankOf_zero, Nat.zero_min]
      have hdenotes : Numeral.Denotes (ascii "0") 0 := Numeral.denotes_decimal 0
      exact .rounded hdenotes ((roundsTo_signed_iff le_rfl).mpr hrank)
    · next hzero =>
      obtain ⟨q, hq, hdenotes, hrank⟩ := exists_denotes_formatMagnitude hzero
      refine .rounded hdenotes ((roundsTo_signed_iff hq).mpr ?_)
      rw [hrank, min_eq_left (isNaN_eq_false_iff.mp hx)]

theorem significant_signText_append (negative : Bool) (text : Bytes) :
    Numeral.significant (signText negative ++ text) = Numeral.significant text := by
  cases negative
  · rfl
  · rw [Numeral.significant, signText, if_pos rfl, show ascii "-" = ['-'.toUInt8] from rfl,
      List.singleton_append, List.takeWhile_cons_of_pos (by decide),
      List.filter_cons_of_neg (by decide)]
    rfl

/-- A text with a mark or a dot has no more digits than any decimal that is rounded to the
number. -/
theorem length_significant_format (hx : x.isNaN = false)
    (hmark : Numeral.mark ∈ x.format ∨ Byte.dot ∈ x.format) {n e : ℤ} {k : Nat}
    (hn : |n| < 10 ^ k) (h : RoundsTo (n * 10 ^ e) x) :
    (Numeral.significant x.format).length ≤ k := by
  have hsign : Numeral.mark ∉ signText x.isNegative ∧ Byte.dot ∉ signText x.isNegative := by
    cases x.isNegative <;> decide
  rw [format_eq hx, significant_signText_append]
  rw [format_eq hx, List.mem_append, List.mem_append, or_iff_right hsign.1,
    or_iff_right hsign.2] at hmark
  split at hmark
  · exact absurd hmark (by decide)
  · next hinf =>
    rw [if_neg hinf]
    split at hmark
    · exact absurd hmark (by decide)
    · next hzero =>
      rw [if_neg hzero]
      have hrank := h.rank_eq
      have hfinite : x.rank < infinityRank :=
        (isNaN_eq_false_iff.mp hx).lt_of_ne fun heq => hinf (isInfinite_iff.mpr heq)
      have habs : |(n : ℚ) * 10 ^ e| = n.natAbs * 10 ^ e := by
        rw [abs_mul, abs_of_pos (by positivity : (0 : ℚ) < 10 ^ e), Nat.cast_natAbs, Int.cast_abs]
      rw [habs] at hrank
      refine length_significant_formatMagnitude hzero hmark (n := n.natAbs) (e := e) ?_ ?_
      · rw [Int.abs_eq_natAbs] at hn
        exact_mod_cast hn
      · omega

end Reads

end Binary64

namespace Literal

/-- The text of a number that is not a NaN is read as this number and as no other, so that no
other number has the same text. If it has a mark or a dot, it has no more significant digits than
any decimal that is rounded to the number. -/
theorem format_roundTrips (x : Binary64) (hx : x.isNaN = false) :
    (∀ y, Binary64.Reads (number x).format y ↔ y = x) ∧
      (∀ y, y.isNaN = false → (number y).format = (number x).format → y = x) ∧
      (Numeral.mark ∈ (number x).format ∨ Byte.dot ∈ (number x).format →
        ∀ (n e : ℤ) (k : ℕ), |n| < 10 ^ k → Binary64.RoundsTo (n * 10 ^ e) x →
          (Numeral.significant (number x).format).length ≤ k) := by
  have hreads := Binary64.reads_format hx
  refine ⟨fun y => ⟨fun h => h.unique hreads, fun h => h ▸ hreads⟩, ?_, ?_⟩
  · intro y hy htext
    have hreads' := Binary64.reads_format hy
    rw [show y.format = x.format from htext] at hreads'
    exact hreads'.unique hreads
  · intro hmark n e k hn h
    exact Binary64.length_significant_format hx hmark hn h

/-- Next to minus one tenth all seventeen digits are needed. -/
theorem format_roundTrips_tenth :
    let x : Binary64 := ⟨0xBFB999999999999B⟩
    x.isNaN = false ∧ (number x).format = ascii "-0.10000000000000002" ∧
      (∀ y, Binary64.Reads (number x).format y ↔ y = x) ∧
      (∀ y, y.isNaN = false → (number y).format = (number x).format → y = x) ∧
      (Numeral.mark ∈ (number x).format ∨ Byte.dot ∈ (number x).format →
        ∀ (n e : ℤ) (k : ℕ), |n| < 10 ^ k → Binary64.RoundsTo (n * 10 ^ e) x →
          (Numeral.significant (number x).format).length ≤ k) :=
  ⟨by decide, by decide +kernel, format_roundTrips ⟨0xBFB999999999999B⟩ (by decide)⟩

end Literal

end LoxLex
