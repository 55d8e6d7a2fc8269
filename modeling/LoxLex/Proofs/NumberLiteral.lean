import Mathlib.Algebra.Order.Monoid.WithTop
import LoxLex.Proofs.Numeral
import LoxLex.Proofs.Places

/-!
# The literals of numbers

The literal of a number token is the value of its lexeme, correctly rounded. What is out of
range becomes infinity, at both ends: a positive numeral that would be rounded to zero is the
one exception to the order of literals.

## Main definitions

* `Binary64.StandsFor` — the pattern that is the literal of a numeral.
* `Binary64.extended` — the value of a pattern, with infinity as the greatest.

## Main statements

* `Source.scan_number_literal`: the literals of a scan are correctly rounded.
* `Source.scan_literal_le_iff`: when two literals are in the order of their lexemes.
-/

namespace LoxLex

namespace Binary64

/-- What the literal of a numeral of value `q` is: zero for zero, infinity outside of the range,
and otherwise the one nearest value. -/
structure StandsFor (x : Binary64) (q : ℚ) : Prop where
  zero : q = 0 → x = Binary64.zero
  infinity : x = Binary64.infinity ↔ overflow ≤ q ∨ 0 < q ∧ q ≤ underflow
  nearest : underflow < q → q < overflow → ∀ y, Nearest q y ↔ y = x

/-- The value of a pattern, where infinity is greater than all others. -/
def extended (x : Binary64) : WithTop ℚ := if x.isInfinite then ⊤ else (x.value : ℚ)

section OfQuotient

variable {num den : Nat}

theorem infinity_eq_ofRank : infinity = ofRank false infinityRank := by decide

theorem ofQuotient_of_pos (h : num ≠ 0) : ofQuotient num den =
    if nearestRank num den = 0 ∨ infinityRank ≤ nearestRank num den then infinity
    else ofRank false (nearestRank num den) := by
  simp only [ofQuotient, if_neg h, ofRank, Bool.false_eq_true, if_false, Nat.zero_add]

theorem out_of_range_iff {q : ℚ} (hq : 0 < q) :
    rankOf q = 0 ∨ infinityRank ≤ rankOf q ↔ overflow ≤ q ∨ 0 < q ∧ q ≤ underflow := by
  rw [rankOf_eq_zero_iff hq.le, overflow_le_iff hq.le, or_comm]
  simp [hq]

theorem ofRank_ne_infinity {r : Nat} (h : r < infinityRank) : ofRank false r ≠ infinity := by
  intro heq
  have hrank := congrArg rank heq
  rw [infinity_eq_ofRank, rank_ofRank (h.trans infinityRank_lt_signBit),
    rank_ofRank infinityRank_lt_signBit] at hrank
  omega

/-- The pattern that a quotient stands for is its literal. -/
theorem standsFor_ofQuotient (num : Nat) {den : Nat} (hden : 0 < den) :
    (ofQuotient num den).StandsFor (num / den) := by
  rcases Nat.eq_zero_or_pos num with rfl | hnum
  · have hzero : ofQuotient 0 den = zero := by simp [ofQuotient]
    rw [hzero, Nat.cast_zero, zero_div]
    refine ⟨fun _ => rfl, ⟨fun h => absurd h (by decide), ?_⟩, ?_⟩
    · rintro (h | ⟨h, -⟩)
      · exact absurd h overflow_pos.not_ge
      · exact absurd h (lt_irrefl _)
    · exact fun h => absurd h underflow_pos.not_gt
  · have hq : (0 : ℚ) < num / den := div_pos (Nat.cast_pos.mpr hnum) (Nat.cast_pos.mpr hden)
    rw [ofQuotient_of_pos hnum.ne', nearestRank_eq_rankOf num hden]
    generalize (num : ℚ) / den = q at hq
    refine ⟨fun h => absurd h hq.ne', ?_, fun hlow hhigh y => ?_⟩
    · rw [← out_of_range_iff hq]
      split
      · next h => exact iff_of_true rfl h
      · next h => exact iff_of_false (ofRank_ne_infinity (by omega)) h
    · have hrange : ¬ (rankOf q = 0 ∨ infinityRank ≤ rankOf q) := by
        rw [out_of_range_iff hq]
        rintro (h | ⟨-, h⟩)
        · exact absurd h hhigh.not_ge
        · exact absurd h hlow.not_ge
      rw [if_neg hrange]
      have hrank : rankOf q < signBit := by
        have := infinityRank_lt_signBit
        omega
      have habs : |q| = q := abs_of_pos hq
      constructor
      · intro h
        have hy := h.rank_eq habs hhigh
        refine eq_of_rank_eq ?_ (hy.trans (rank_ofRank hrank).symm)
        rw [isNegative_ofRank hrank]
        exact h.isNegative_eq_false hq (by omega)
      · rintro rfl
        have hnearest := nearest_signed_iff (x := ofRank false (rankOf q)) hq.le hhigh
        rw [isNegative_ofRank hrank] at hnearest
        exact hnearest.mpr (rank_ofRank hrank)

end OfQuotient

/-! ## Order -/

theorem extended_of_isFinite {x : Binary64} (h : x.isFinite) : x.extended = (x.value : ℚ) := by
  rw [extended, if_neg]
  rw [isInfinite_iff]
  exact (isFinite_iff.mp h).ne

theorem extended_infinity : infinity.extended = ⊤ := if_pos (by decide)

theorem extended_zero : zero.extended = (0 : ℚ) := by
  rw [extended_of_isFinite (by decide), value_eq_signed, magnitude_eq_units,
    show zero.rank = 0 from rfl, units_zero, Nat.cast_zero, zero_div, signed_zero]

/-- Where the value is in range, the literal is finite. -/
theorem StandsFor.exists_value {x : Binary64} {q : ℚ} (h : x.StandsFor q) (hlow : underflow < q)
    (hhigh : q < overflow) : x.extended = (units (rankOf q) / unitsInOne : ℚ) := by
  have hq := underflow_pos.trans hlow
  have hnearest := (h.nearest hlow hhigh x).mpr rfl
  have hrank := hnearest.rank_eq (abs_of_pos hq) hhigh
  have hne : x.rank ≠ 0 := by
    rw [hrank, Ne, rankOf_eq_zero_iff hq.le]
    exact hlow.not_ge
  rw [extended_of_isFinite hnearest.isFinite, value_eq_signed,
    hnearest.isNegative_eq_false hq hne, magnitude_eq_units, hrank]
  rfl

/-- Literals are in the order of the values that they stand for, unless the lesser value is
positive and too small for its range and the greater one is in it. -/
theorem StandsFor.extended_le_iff {x y : Binary64} {p q : ℚ} (hx : x.StandsFor p)
    (hy : y.StandsFor q) (hp : 0 ≤ p) (hle : p ≤ q) :
    x.extended ≤ y.extended ↔ ¬ (0 < p ∧ p ≤ underflow ∧ underflow < q ∧ q < overflow) := by
  by_cases hq : overflow ≤ q ∨ 0 < q ∧ q ≤ underflow
  · rw [hy.infinity.mpr hq, extended_infinity]
    refine iff_of_true le_top ?_
    rintro ⟨-, -, hlow, hhigh⟩
    rcases hq with hq | ⟨-, hq⟩
    · exact absurd hq hhigh.not_ge
    · exact absurd hq hlow.not_ge
  · rw [not_or, not_and, not_le, not_le] at hq
    obtain ⟨hhigh, hlow⟩ := hq
    rcases hp.eq_or_lt with rfl | hp
    · rw [hx.zero rfl, extended_zero]
      refine iff_of_true ?_ fun h => lt_irrefl _ h.1
      rcases hle.eq_or_lt with rfl | hpos
      · rw [hy.zero rfl, extended_zero]
      · rw [hy.exists_value (hlow hpos) hhigh, WithTop.coe_le_coe]
        exact div_unitsInOne_nonneg _
    · have hlow := hlow (hp.trans_le hle)
      rw [hy.exists_value hlow hhigh]
      by_cases hsmall : p ≤ underflow
      · rw [hx.infinity.mpr (.inr ⟨hp, hsmall⟩), extended_infinity]
        exact iff_of_false (WithTop.coe_lt_top _).not_ge fun h => h ⟨hp, hsmall, hlow, hhigh⟩
      · rw [hx.exists_value (not_le.mp hsmall) (hle.trans_lt hhigh), WithTop.coe_le_coe]
        refine iff_of_true ?_ fun h => hsmall h.2.1
        have hrank := units_strictMono.monotone (rankOf_mono hp.le hle)
        exact div_le_div_of_nonneg_right (Nat.cast_le.mpr hrank) unitsInOne_pos.le

end Binary64

theorem Decimal.standsFor_toBinary64 (d : Decimal) : d.toBinary64.StandsFor d.value := by
  rw [← d.numerator_div_denominator]
  exact Binary64.standsFor_ofQuotient _ d.denominator_pos

/-! ## Number tokens -/

theorem Segment.shape_eq_number {s : Segment} (h : s.kind? = some .number) : s.shape = .number := by
  have hword : Kind.ofWord s.text ≠ .number := Kind.ofWord_ne (by simp) rfl
  unfold kind? at h
  split at h <;> simp_all

namespace Source

variable {s : Source} {sink : Sink} {t : Token}

/-- The lexeme of a number token is a numeral, and its literal is read from it. -/
theorem number_of_mem_tokens (ht : t ∈ s.tokens) (hkind : t.kind = .number) :
    Shape.number.Spells t.lexeme ∧
      t.literal = some (.number (Decimal.ofNumeral t.lexeme).toBinary64) := by
  rcases exists_of_mem_tokens ht with rfl | ⟨p, hp, hpt⟩
  · cases hkind
  · obtain ⟨kind, hkind', rfl⟩ := Option.map_eq_some_iff.mp hpt
    obtain rfl : kind = .number := hkind
    have hshape := Segment.shape_eq_number hkind'
    have hformed := formed_of_mem_placed hp
    refine ⟨?_, ?_⟩
    · exact hshape ▸ hformed.spells (by rw [hshape]; rfl)
    · simp only [Segment.literal?, hshape]

theorem standsFor_of_mem_tokens (ht : t ∈ s.tokens) (hkind : t.kind = .number) :
    ∃ x : Binary64, t.literal = some (.number x) ∧ x.StandsFor (Numeral.value t.lexeme) := by
  obtain ⟨hspells, hliteral⟩ := number_of_mem_tokens ht hkind
  exact ⟨_, hliteral, Decimal.value_ofNumeral hspells ▸ Decimal.standsFor_toBinary64 _⟩

/-- The literal of every number token is what its lexeme stands for. -/
theorem scan_number_literal (s : Source) (sink : Sink) (t : Token) (ht : t ∈ (s.scan sink).1)
    (hkind : t.kind = .number) : Shape.number.Spells t.lexeme ∧
      ∃ x : Binary64, t.literal = some (.number x) ∧ x.StandsFor (Numeral.value t.lexeme) := by
  rw [scan_eq] at ht
  exact ⟨(number_of_mem_tokens ht hkind).1, standsFor_of_mem_tokens ht hkind⟩

/-- The lexeme is halfway between two numbers. -/
theorem scan_number_literal_halfway :
    let s : Source := ⟨ascii "1.5 9007199254740993", [], 0⟩
    let t : Token := ⟨.number, ascii "9007199254740993", some (.number ⟨0x4340000000000000⟩), 1,
      ⟨⟨1, 5, 4⟩, ⟨1, 21, 20⟩, 0⟩⟩
    t ∈ (s.scan ⟨[], []⟩).1 ∧ t.kind = .number ∧ Shape.number.Spells t.lexeme ∧
      ∃ x : Binary64, t.literal = some (.number x) ∧ x.StandsFor (Numeral.value t.lexeme) := by
  intro s t
  have ht : t ∈ (s.scan ⟨[], []⟩).1 := by decide +kernel
  exact ⟨ht, rfl, scan_number_literal s ⟨[], []⟩ t ht rfl⟩

/-- The literals of two number tokens are in the order of the values of their lexemes, unless
the lesser value is positive and too small for its range and the greater one is in it: then the
first literal is infinity and the second is not. -/
theorem scan_literal_le_iff (s s' : Source) (sink sink' : Sink) (t u : Token)
    (ht : t ∈ (s.scan sink).1) (hu : u ∈ (s'.scan sink').1) (htkind : t.kind = .number)
    (hukind : u.kind = .number) (hle : Numeral.value t.lexeme ≤ Numeral.value u.lexeme) :
    ∃ x y : Binary64, t.literal = some (.number x) ∧ u.literal = some (.number y) ∧
      (x.extended ≤ y.extended ↔
        ¬ (0 < Numeral.value t.lexeme ∧ Numeral.value t.lexeme ≤ Binary64.underflow ∧
          Binary64.underflow < Numeral.value u.lexeme ∧
          Numeral.value u.lexeme < Binary64.overflow)) := by
  rw [scan_eq] at ht hu
  obtain ⟨x, hx, hxt⟩ := standsFor_of_mem_tokens ht htkind
  obtain ⟨y, hy, hyu⟩ := standsFor_of_mem_tokens hu hukind
  have hpos : 0 ≤ Numeral.value t.lexeme := by
    rw [← Decimal.value_ofNumeral (number_of_mem_tokens ht htkind).1]
    exact Decimal.value_nonneg _
  exact ⟨x, y, hx, hy, hxt.extended_le_iff hyu hpos hle⟩

theorem scan_literal_le_iff_tenth :
    let s : Source := ⟨ascii "0.1", [], 0⟩
    let s' : Source := ⟨ascii "0.10000000000000001", [], 0⟩
    let t : Token := ⟨.number, ascii "0.1", some (.number ⟨0x3FB999999999999A⟩), 1,
      ⟨⟨1, 1, 0⟩, ⟨1, 4, 3⟩, 0⟩⟩
    let u : Token := ⟨.number, ascii "0.10000000000000001", some (.number ⟨0x3FB999999999999A⟩), 1,
      ⟨⟨1, 1, 0⟩, ⟨1, 20, 19⟩, 0⟩⟩
    t ∈ (s.scan ⟨[], []⟩).1 ∧ u ∈ (s'.scan ⟨[], []⟩).1 ∧ t.kind = .number ∧ u.kind = .number ∧
      Numeral.value t.lexeme ≤ Numeral.value u.lexeme ∧
      ∃ x y : Binary64, t.literal = some (.number x) ∧ u.literal = some (.number y) ∧
        (x.extended ≤ y.extended ↔
          ¬ (0 < Numeral.value t.lexeme ∧ Numeral.value t.lexeme ≤ Binary64.underflow ∧
            Binary64.underflow < Numeral.value u.lexeme ∧
            Numeral.value u.lexeme < Binary64.overflow)) := by
  intro s s' t u
  have ht : t ∈ (s.scan ⟨[], []⟩).1 := by decide +kernel
  have hu : u ∈ (s'.scan ⟨[], []⟩).1 := by decide +kernel
  have hle : Numeral.value t.lexeme ≤ Numeral.value u.lexeme := by decide +kernel
  exact ⟨ht, hu, rfl, rfl, hle, scan_literal_le_iff s s' ⟨[], []⟩ ⟨[], []⟩ t u ht hu rfl rfl hle⟩

/-- A numeral that is too close to zero has a greater literal than one has. -/
theorem scan_literal_not_monotone : ¬ ∀ (s s' : Source) (sink sink' : Sink) (t u : Token),
    t ∈ (s.scan sink).1 → u ∈ (s'.scan sink').1 → t.kind = .number → u.kind = .number →
      Numeral.value t.lexeme ≤ Numeral.value u.lexeme →
      ∃ x y : Binary64, t.literal = some (.number x) ∧ u.literal = some (.number y) ∧
        x.extended ≤ y.extended := by
  intro h
  let small : Bytes := ascii "0." ++ List.replicate 323 '0'.toUInt8 ++ ascii "2"
  let s : Source := ⟨small ++ ascii " 1", [], 0⟩
  let t : Token := ⟨.number, small, some (.number .infinity), 1, ⟨⟨1, 1, 0⟩, ⟨1, 327, 326⟩, 0⟩⟩
  let u : Token := ⟨.number, ascii "1", some (.number ⟨0x3FF0000000000000⟩), 1,
    ⟨⟨1, 328, 327⟩, ⟨1, 329, 328⟩, 0⟩⟩
  have ht : t ∈ (s.scan ⟨[], []⟩).1 := by decide +kernel
  have hu : u ∈ (s.scan ⟨[], []⟩).1 := by decide +kernel
  have hle : Numeral.value t.lexeme ≤ Numeral.value u.lexeme := by decide +kernel
  obtain ⟨x, y, hx, hy, hxy⟩ := h s s ⟨[], []⟩ ⟨[], []⟩ t u ht hu rfl rfl hle
  obtain rfl : x = .infinity := by simpa [t, eq_comm] using hx
  obtain rfl : y = ⟨0x3FF0000000000000⟩ := by simpa [u, eq_comm] using hy
  rw [Binary64.extended_infinity, Binary64.extended_of_isFinite (by decide), top_le_iff] at hxy
  exact WithTop.coe_ne_top hxy

end Source

end LoxLex
