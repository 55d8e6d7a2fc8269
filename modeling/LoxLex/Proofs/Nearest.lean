import LoxLex.Proofs.Rounding

/-!
# The nearest value

Rounding as a rule about values: a number is rounded to the finite value nearest to it, to the
even significand where two are equally near, and to infinity where it is too great.

## Main definitions

* `Binary64.Nearest` — the finite patterns whose value is nearest to a number.
* `Binary64.RoundsTo` — the patterns that a number is rounded to.

## Main statements

* `Binary64.nearest_signed_iff`: the nearest pattern of a given sign is the one of the nearest
  rank.
* `Binary64.overflow_le_iff`, `Binary64.rankOf_eq_zero_iff` — both ends of the range.
-/

namespace LoxLex.Binary64

/-- From here on numbers are rounded to infinity: it is the middle between the greatest finite
value and the power of two behind it. -/
def overflow : ℚ := 2 ^ 1024 - 2 ^ 970

/-- Up to here numbers are rounded to zero: it is one half of the least positive value. -/
def underflow : ℚ := 1 / 2 ^ 1075

/-- The pattern is finite and no finite value is nearer to `q` than its own. If another is as
near, its significand is even. -/
structure Nearest (q : ℚ) (x : Binary64) : Prop where
  isFinite : x.isFinite
  closest : ∀ y : Binary64, y.isFinite → |x.value - q| ≤ |y.value - q|
  even_of_tie : ∀ y : Binary64, y.isFinite → y.value ≠ x.value →
    |y.value - q| = |x.value - q| → Even x.significand

/-- A number is rounded to a nearest pattern, or to the infinity of its sign. -/
def RoundsTo (q : ℚ) (x : Binary64) : Prop :=
  if |q| < overflow then Nearest q x else x.isInfinite ∧ (x.isNegative ↔ q < 0)

/-! ## The ends of the range -/

theorem infinityRank_eq : infinityRank = 2045 * binade + 2 * binade := by decide

/-- The middle between the greatest finite magnitude and the next, in half units. -/
theorem units_pred_add_units_infinityRank :
    (units (infinityRank - 1) + units infinityRank : ℚ) = 2 * (overflow * unitsInOne) := by
  have hinfinity : units infinityRank = 2 * binade * 2 ^ 2045 := by
    rw [infinityRank_eq]
    exact units_shift le_rfl (.inr (by decide))
  have hpred : units (infinityRank - 1) = (2 * binade - 1) * 2 ^ 2045 := by
    rw [infinityRank_eq, Nat.add_sub_assoc (by decide)]
    exact units_shift (Nat.sub_le _ _) (.inr (by decide))
  have h₁ : (2 : ℚ) ^ 1024 = 2 ^ 54 * 2 ^ 970 := by rw [← pow_add]
  have h₂ : (2 : ℚ) ^ 2045 = 2 * 2 ^ 970 * unitsInOne := by
    rw [cast_unitsInOne, ← pow_succ', ← pow_add]
  rw [hinfinity, hpred, overflow, Nat.cast_mul, Nat.cast_mul, Nat.cast_pow, Nat.cast_ofNat, h₁, h₂,
    binade_eq]
  generalize (2 : ℚ) ^ 970 = a
  generalize (unitsInOne : ℚ) = u
  norm_num
  ring

section Range

variable {q : ℚ}

theorem overflow_le_iff (hq : 0 ≤ q) : overflow ≤ q ↔ infinityRank ≤ rankOf q := by
  have hodd : ¬ Even (infinityRank - 1) := by decide
  have hpred := (isNearest_rankOf hq).le_iff (infinityRank - 1)
  rw [show infinityRank - 1 + 1 = infinityRank from rfl, units_pred_add_units_infinityRank] at hpred
  have hlt : rankOf q < infinityRank ↔ q < overflow := by
    rw [← Nat.le_sub_one_iff_lt (by decide), hpred, mul_lt_mul_iff_right₀ two_pos,
      mul_lt_mul_iff_left₀ unitsInOne_pos]
    exact or_iff_left fun h => hodd h.2
  rw [← not_lt, ← hlt, not_lt]

theorem rankOf_eq_zero_iff (hq : 0 ≤ q) : rankOf q = 0 ↔ q ≤ underflow := by
  have hzero := (isNearest_rankOf hq).le_iff 0
  have hhalf : 2 * (q * unitsInOne) = q * 2 ^ 1075 := by
    rw [cast_unitsInOne, mul_comm, mul_assoc, ← pow_succ]
  have hunits : ((units 0 : ℕ) : ℚ) + (units (0 + 1) : ℕ) = 1 := by
    rw [units_succ]
    simp
  rw [hunits, hhalf] at hzero
  rw [← Nat.le_zero, hzero, underflow, le_div_iff₀ (by positivity), le_iff_lt_or_eq]
  simp

theorem underflow_pos : 0 < underflow := by
  unfold underflow
  positivity

theorem overflow_pos : 0 < overflow := by
  unfold overflow
  exact sub_pos.mpr (pow_lt_pow_right₀ one_lt_two (by decide))

@[simp] theorem rankOf_zero : rankOf 0 = 0 := (rankOf_eq_zero_iff le_rfl).mpr underflow_pos.le

theorem rankOf_lt_infinityRank (hq : 0 ≤ q) (hlt : q < overflow) : rankOf q < infinityRank := by
  rw [← not_le, ← overflow_le_iff hq, not_le]
  exact hlt

end Range

/-! ## Signs -/

/-- A magnitude with a sign. -/
def signed (negative : Bool) (q : ℚ) : ℚ := if negative then -q else q

section Signed

variable {negative : Bool} {p q : ℚ} {x y : Binary64} {r : Nat}

theorem value_eq_signed (x : Binary64) : x.value = signed x.isNegative x.magnitude := rfl

theorem abs_signed (negative : Bool) (q : ℚ) : |signed negative q| = |q| := by
  unfold signed
  split
  · exact abs_neg q
  · rfl

theorem abs_signed_sub_signed (negative : Bool) (p q : ℚ) :
    |signed negative p - signed negative q| = |p - q| := by
  unfold signed
  split
  · rw [neg_sub_neg, abs_sub_comm]
  · rfl

theorem exists_signed_abs (q : ℚ) : ∃ negative, signed negative |q| = q := by
  rcases abs_choice q with h | h
  · exact ⟨false, h⟩
  · exact ⟨true, neg_eq_iff_eq_neg.mpr h⟩

@[simp] theorem signed_zero (negative : Bool) : signed negative 0 = 0 := by
  cases negative <;> simp [signed]

/-- Two patterns of one magnitude and different values are not equally near to any number but
zero. -/
theorem eq_zero_of_value_ne (hp : 0 ≤ p) (hmagnitude : y.magnitude = x.magnitude)
    (hne : y.value ≠ x.value)
    (htie : |y.value - signed x.isNegative p| = |x.magnitude - p|) : x.magnitude = 0 ∨ p = 0 := by
  have hx := x.magnitude_nonneg
  have hsum : |y.value - signed x.isNegative p| = x.magnitude + p := by
    rw [value_eq_signed, hmagnitude] at hne ⊢
    rw [value_eq_signed] at hne
    cases hy : y.isNegative <;> cases hsign : x.isNegative
    · exact absurd (by rw [hy, hsign]) hne
    · rw [signed, signed, if_neg Bool.false_ne_true, if_pos rfl, sub_neg_eq_add,
        abs_of_nonneg (by linarith)]
    · rw [signed, signed, if_pos rfl, if_neg Bool.false_ne_true, ← neg_add', abs_neg,
        abs_of_nonneg (by linarith)]
    · exact absurd (by rw [hy, hsign]) hne
  rw [hsum] at htie
  rcases abs_choice (x.magnitude - p) with habs | habs
  · exact .inr (by linarith)
  · exact .inl (by linarith)

/-- Distances between magnitudes are no greater than those between values. -/
theorem abs_magnitude_sub_le (x : Binary64) (q : ℚ) : |x.magnitude - (|q|)| ≤ |x.value - q| := by
  rw [← abs_value]
  exact abs_abs_sub_abs_le x.value q

theorem rank_eq_of_value_eq (h : x.value = y.value) : x.rank = y.rank := by
  have habs := congrArg abs h
  rw [abs_value, abs_value, magnitude_eq_units, magnitude_eq_units,
    div_left_inj' unitsInOne_pos.ne', Nat.cast_inj] at habs
  exact units_strictMono.injective habs

/-! ## Nearest patterns -/

/-- The distance of a rank's magnitude in units, and as a value. -/
theorem abs_units_sub (r : Nat) (q : ℚ) :
    |(units r : ℚ) - q * unitsInOne| = |units r / unitsInOne - q| * unitsInOne := by
  rw [← abs_of_pos unitsInOne_pos, ← abs_mul, abs_of_pos unitsInOne_pos, sub_mul,
    div_mul_cancel₀ _ unitsInOne_pos.ne']

theorem abs_units_sub_le_iff (r r' : Nat) (q : ℚ) :
    |(units r : ℚ) - q * unitsInOne| ≤ |(units r' : ℚ) - q * unitsInOne| ↔
      |units r / unitsInOne - q| ≤ |units r' / unitsInOne - q| := by
  rw [abs_units_sub, abs_units_sub, mul_le_mul_iff_left₀ unitsInOne_pos]

theorem abs_units_sub_eq_iff (r r' : Nat) (q : ℚ) :
    |(units r : ℚ) - q * unitsInOne| = |(units r' : ℚ) - q * unitsInOne| ↔
      |units r / unitsInOne - q| = |units r' / unitsInOne - q| := by
  rw [abs_units_sub, abs_units_sub, mul_left_inj' unitsInOne_pos.ne']

theorem isFinite_iff : x.isFinite ↔ x.rank < infinityRank := decide_eq_true_iff

/-- The ranks beyond the finite ones are farther away than the last finite one. -/
theorem abs_units_sub_lt (hlt : q < overflow) (hr : infinityRank ≤ r) :
    |(units (infinityRank - 1) : ℚ) - q * unitsInOne| < |(units r : ℚ) - q * unitsInOne| := by
  have hmid := units_pred_add_units_infinityRank
  have hle : (units infinityRank : ℚ) ≤ units r := Nat.cast_le.mpr (units_strictMono.monotone hr)
  have hstep : (units (infinityRank - 1) : ℚ) < units infinityRank :=
    Nat.cast_lt.mpr (units_strictMono (by decide))
  have hbelow : q * unitsInOne < overflow * unitsInOne := mul_lt_mul_of_pos_right hlt unitsInOne_pos
  rw [← not_le, abs_sub_le_abs_sub_iff' (hstep.trans_le hle)]
  linarith

/-- Every finite rank has a pattern on the side of zero on which a number is. -/
theorem exists_isFinite_rank_eq (q : ℚ) (hr : r < infinityRank) : ∃ y : Binary64,
    y.isFinite ∧ y.rank = r ∧ |y.value - q| = |units r / unitsInOne - (|q|)| := by
  obtain ⟨negative, hq⟩ := exists_signed_abs q
  have hr' := hr.trans infinityRank_lt_signBit
  refine ⟨ofRank negative r, isFinite_iff.mpr ((rank_ofRank hr').symm ▸ hr), rank_ofRank hr', ?_⟩
  nth_rewrite 1 [← hq]
  rw [value_eq_signed, isNegative_ofRank hr', abs_signed_sub_signed, magnitude_eq_units,
    rank_ofRank hr']

/-- What is nearest among the finite values has the nearest rank. -/
theorem Nearest.rank_eq (h : Nearest q x) (hp : |q| = p) (hlt : p < overflow) :
    x.rank = rankOf p := by
  subst hp
  have hx := abs_magnitude_sub_le x q
  rw [magnitude_eq_units] at hx
  have hclosest : ∀ r < infinityRank,
      |(units x.rank : ℚ) - (|q|) * unitsInOne| ≤ |(units r : ℚ) - (|q|) * unitsInOne| := by
    intro r hr
    obtain ⟨y, hy, -, hdist⟩ := exists_isFinite_rank_eq q hr
    rw [abs_units_sub_le_iff, ← hdist]
    exact hx.trans (h.closest y hy)
  have hnearest : IsNearest ((|q|) * unitsInOne) x.rank := by
    constructor
    · intro r
      rcases Nat.lt_or_ge r infinityRank with hr | hr
      · exact hclosest r hr
      · exact (hclosest _ (by decide)).trans (abs_units_sub_lt hlt hr).le
    · intro r hne htie
      rcases Nat.lt_or_ge r infinityRank with hr | hr
      · obtain ⟨y, hy, hrank, hdist⟩ := exists_isFinite_rank_eq q hr
        rw [abs_units_sub_eq_iff, ← hdist] at htie
        refine (even_significand_iff x).mp (h.even_of_tie y hy ?_ ?_)
        · intro hvalue
          exact hne (hrank ▸ rank_eq_of_value_eq hvalue)
        · exact le_antisymm (htie ▸ hx) (h.closest y hy)
      · have hnear := hclosest (infinityRank - 1) (by decide)
        rw [← htie] at hnear
        exact absurd hnear (abs_units_sub_lt hlt hr).not_ge
  exact hnearest.unique (isNearest_rankOf (abs_nonneg q))

/-- The nearest pattern of a given sign is the one of the nearest rank. -/
theorem nearest_signed_iff (hp : 0 ≤ p) (hlt : p < overflow) :
    Nearest (signed x.isNegative p) x ↔ x.rank = rankOf p := by
  have habs : |signed x.isNegative p| = p := by rw [abs_signed, abs_of_nonneg hp]
  constructor
  · intro h
    exact h.rank_eq habs hlt
  · intro hrank
    have hnearest := isNearest_rankOf hp
    rw [← hrank] at hnearest
    have hx : |x.value - signed x.isNegative p| = |x.magnitude - p| := by
      rw [value_eq_signed, abs_signed_sub_signed]
    have hle : ∀ y : Binary64, |x.magnitude - p| ≤ |y.magnitude - p| := by
      intro y
      rw [magnitude_eq_units, magnitude_eq_units, ← abs_units_sub_le_iff]
      exact hnearest.closest y.rank
    have hvalue : ∀ y : Binary64, |y.magnitude - p| ≤ |y.value - signed x.isNegative p| := by
      intro y
      have hy := abs_magnitude_sub_le y (signed x.isNegative p)
      rwa [habs] at hy
    refine ⟨isFinite_iff.mpr (hrank ▸ rankOf_lt_infinityRank hp hlt),
      fun y _ => hx ▸ (hle y).trans (hvalue y), ?_⟩
    intro y _ hne htie
    rw [hx] at htie
    by_cases hrank' : y.rank = x.rank
    · -- the pattern of the other sign is farther away, unless both are zero
      have hmagnitude : y.magnitude = x.magnitude := by
        rw [magnitude_eq_units, magnitude_eq_units, hrank']
      have hzero : x.magnitude = 0 := by
        rcases eq_zero_of_value_ne hp hmagnitude hne htie with hzero | rfl
        · exact hzero
        · rw [magnitude_eq_units, hrank, rankOf_zero, units_zero, Nat.cast_zero, zero_div]
      refine absurd ?_ hne
      rw [value_eq_signed, value_eq_signed, hmagnitude, hzero, signed_zero, signed_zero]
    · have htie' : |y.magnitude - p| = |x.magnitude - p| :=
        le_antisymm (htie ▸ hvalue y) (hle y)
      refine (even_significand_iff x).mpr (hnearest.even_of_tie y.rank hrank' ?_)
      rwa [abs_units_sub_eq_iff, ← magnitude_eq_units, ← magnitude_eq_units]

theorem isInfinite_iff : x.isInfinite ↔ x.rank = infinityRank := beq_iff_eq

/-- What a number is rounded to has the rank nearest to it, or that of infinity. -/
theorem RoundsTo.rank_eq (h : RoundsTo q x) : x.rank = min (rankOf |q|) infinityRank := by
  unfold RoundsTo at h
  split at h
  · next hlt =>
    rw [h.rank_eq rfl hlt, min_eq_left (rankOf_lt_infinityRank (abs_nonneg q) hlt).le]
  · next hge =>
    rw [isInfinite_iff.mp h.1, min_eq_right]
    exact (overflow_le_iff (abs_nonneg q)).mp (not_lt.mp hge)

theorem roundsTo_signed_iff (hp : 0 ≤ p) :
    RoundsTo (signed x.isNegative p) x ↔ x.rank = min (rankOf p) infinityRank := by
  have habs : |signed x.isNegative p| = p := by rw [abs_signed, abs_of_nonneg hp]
  refine ⟨fun h => habs ▸ h.rank_eq, fun hrank => ?_⟩
  unfold RoundsTo
  rw [habs]
  split
  · next hlt =>
    rw [nearest_signed_iff hp hlt, hrank, min_eq_left (rankOf_lt_infinityRank hp hlt).le]
  · next hge =>
    have hover := not_lt.mp hge
    refine ⟨isInfinite_iff.mpr (hrank.trans (min_eq_right ((overflow_le_iff hp).mp hover))), ?_⟩
    have hpos : 0 < p := overflow_pos.trans_le hover
    unfold signed
    split
    · next hneg => simpa [hneg] using hpos
    · next hneg => simpa [hneg] using hp

/-- What is nearest to a positive number is not negative, unless it is zero. -/
theorem Nearest.isNegative_eq_false (h : Nearest q x) (hq : 0 < q) (hx : x.rank ≠ 0) :
    x.isNegative = false := by
  rw [← Bool.not_eq_true]
  intro hneg
  have hpos : 0 < x.magnitude := by
    rw [magnitude_eq_units]
    exact div_pos (Nat.cast_pos.mpr (Nat.pos_of_ne_zero (units_ne_zero hx))) unitsInOne_pos
  have hclosest := h.closest (ofRank false x.rank)
    (isFinite_iff.mpr ((rank_ofRank x.rank_lt_signBit).symm ▸ isFinite_iff.mp h.isFinite))
  rw [value_eq_signed, value_eq_signed, hneg, isNegative_ofRank x.rank_lt_signBit,
    magnitude_eq_units (ofRank _ _), rank_ofRank x.rank_lt_signBit,
    ← magnitude_eq_units] at hclosest
  have hfar : |signed true x.magnitude - q| = x.magnitude + q := by
    rw [signed, if_pos rfl, ← neg_add', abs_neg, abs_of_pos (by linarith)]
  rw [hfar, signed, if_neg Bool.false_ne_true] at hclosest
  rcases abs_choice (x.magnitude - q) with habs | habs <;> linarith

end Signed

end LoxLex.Binary64
