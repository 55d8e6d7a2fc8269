import Mathlib.Tactic.Linarith
import LoxLex.Proofs.Rank

/-!
# Rounding to the nearest rank

Ranks have no end here: what lies beyond infinity is spaced like the magnitudes below it. So
every quotient has a nearest rank, and where rounding changes from one rank to the next is
told by the magnitudes of these two alone.

## Main definitions

* `Binary64.IsNearest` — the rank to which a number of units is rounded.
* `Binary64.rankOf` — the rank to which a rational number is rounded.

## Main statements

* `Binary64.isNearest_nearestRank`: a quotient is rounded to its nearest rank.
* `Binary64.IsNearest.le_iff`: which numbers are rounded to no more than a given rank.
* `Binary64.rankOf_mono`: rounding keeps the order.
-/

namespace LoxLex

/-! ## Rounding to whole numbers -/

section RoundHalfEven

variable (num : Nat) {den : Nat}

theorem roundHalfEven_mul_bounds (h : 0 < den) :
    2 * (roundHalfEven num den * den) ≤ 2 * num + den ∧
      2 * num ≤ 2 * (roundHalfEven num den * den) + den ∧
      (2 * (roundHalfEven num den * den) = 2 * num + den ∨
        2 * num = 2 * (roundHalfEven num den * den) + den → Even (roundHalfEven num den)) := by
  have hnum := Nat.div_add_mod' num den
  have hmod := Nat.mod_lt num h
  unfold roundHalfEven
  cases hcompare : compare (2 * (num % den)) den with
  | lt =>
    have hlt := Nat.compare_eq_lt.mp hcompare
    dsimp only
    omega
  | eq =>
    have heq := Nat.compare_eq_eq.mp hcompare
    dsimp only
    rcases Nat.mod_two_eq_zero_or_one (num / den) with hq | hq
    · rw [hq, Nat.add_zero]
      exact ⟨by omega, by omega, fun _ => Nat.even_iff.mpr hq⟩
    · have hsucc := Nat.add_one_mul (num / den) den
      rw [hq]
      exact ⟨by omega, by omega, fun _ => Nat.even_iff.mpr (by omega)⟩
  | gt =>
    have hgt := Nat.compare_eq_gt.mp hcompare
    have hsucc := Nat.add_one_mul (num / den) den
    dsimp only
    omega

theorem roundHalfEven_eq_or (den : Nat) :
    roundHalfEven num den = num / den ∨ roundHalfEven num den = num / den + 1 := by
  unfold roundHalfEven
  split <;> dsimp only <;> omega

theorem roundHalfEven_mul_self (h : 0 < den) : roundHalfEven (num * den) den = num := by
  rw [roundHalfEven, Nat.mul_mod_left, Nat.mul_div_cancel num h, Nat.compare_eq_lt.mpr h]

/-- A quotient is rounded by one half at most, and by that much only to an even number. -/
theorem abs_roundHalfEven_sub_le_half (h : 0 < den) :
    |(roundHalfEven num den : ℚ) - num / den| ≤ 1 / 2 ∧
      (|(roundHalfEven num den : ℚ) - num / den| = 1 / 2 → Even (roundHalfEven num den)) := by
  obtain ⟨hle, hge, heven⟩ := roundHalfEven_mul_bounds num h
  have hden : (0 : ℚ) < den := Nat.cast_pos.mpr h
  have hscale : |(roundHalfEven num den : ℚ) - num / den| =
      |((roundHalfEven num den * den : ℕ) : ℚ) - num| / den := by
    rw [← abs_of_pos hden, ← abs_div, abs_of_pos hden, sub_div, Nat.cast_mul,
      mul_div_cancel_right₀ _ hden.ne']
  have hle' : (2 : ℚ) * (roundHalfEven num den * den : ℕ) ≤ 2 * num + den := by exact_mod_cast hle
  have hge' : (2 : ℚ) * num ≤ 2 * (roundHalfEven num den * den : ℕ) + den := by exact_mod_cast hge
  rw [hscale, div_le_div_iff₀ hden two_pos, div_eq_div_iff hden.ne' two_ne_zero]
  generalize roundHalfEven num den * den = n at *
  constructor
  · have : |(n : ℚ) - num| ≤ den / 2 := abs_le.mpr ⟨by linarith, by linarith⟩
    linarith
  · intro htie
    refine heven ?_
    rcases abs_choice ((n : ℚ) - num) with hsign | hsign
    · refine .inl ?_
      rw [hsign] at htie
      have : (2 : ℚ) * n = 2 * num + den := by linarith
      exact_mod_cast this
    · refine .inr ?_
      rw [hsign] at htie
      have : (2 : ℚ) * num = 2 * n + den := by linarith
      exact_mod_cast this

/-- Two whole numbers are at least one apart, so their distances to any point add up to one. -/
theorem one_le_abs_sub_add {m n : Nat} (hne : m ≠ n) (x : ℚ) :
    1 ≤ |(m : ℚ) - x| + |(n : ℚ) - x| := by
  have hint : (1 : ℚ) ≤ |(m : ℚ) - n| := by
    exact_mod_cast Int.one_le_abs (sub_ne_zero.mpr (Nat.cast_injective.ne hne : (m : ℤ) ≠ n))
  have htriangle := abs_sub_le (m : ℚ) x n
  rw [abs_sub_comm x] at htriangle
  linarith

/-- No whole number is nearer to a quotient than the one it is rounded to. -/
theorem abs_roundHalfEven_sub_le (h : 0 < den) (m : Nat) :
    |(roundHalfEven num den : ℚ) - num / den| ≤ |(m : ℚ) - num / den| := by
  rcases eq_or_ne m (roundHalfEven num den) with rfl | hne
  · exact le_rfl
  · have hhalf := (abs_roundHalfEven_sub_le_half num h).1
    have hone := one_le_abs_sub_add hne (num / den)
    linarith

theorem even_roundHalfEven (h : 0 < den) {m : Nat} (hne : m ≠ roundHalfEven num den)
    (htie : |(m : ℚ) - num / den| = |(roundHalfEven num den : ℚ) - num / den|) :
    Even (roundHalfEven num den) := by
  obtain ⟨hhalf, heven⟩ := abs_roundHalfEven_sub_le_half num h
  have hone := one_le_abs_sub_add hne (num / den)
  exact heven (by linarith)

end RoundHalfEven

namespace Binary64

/-! ## Distances -/

section Distance

variable {a b : ℚ}

/-- The nearer of two numbers is the one on the same side of their middle. -/
theorem abs_sub_le_abs_sub_iff (h : a < b) (q : ℚ) : |a - q| ≤ |b - q| ↔ 2 * q ≤ a + b := by
  have hsquares : (b - q) ^ 2 - (a - q) ^ 2 = (b - a) * (a + b - 2 * q) := by ring
  rw [← sq_le_sq, ← sub_nonneg, hsquares, mul_nonneg_iff_of_pos_left (sub_pos.mpr h), sub_nonneg]

theorem abs_sub_le_abs_sub_iff' (h : a < b) (q : ℚ) : |b - q| ≤ |a - q| ↔ a + b ≤ 2 * q := by
  have hsquares : (a - q) ^ 2 - (b - q) ^ 2 = (b - a) * (2 * q - (a + b)) := by ring
  rw [← sq_le_sq, ← sub_nonneg, hsquares, mul_nonneg_iff_of_pos_left (sub_pos.mpr h), sub_nonneg]

end Distance

/-! ## The nearest rank -/

/-- No magnitude is nearer to `q` units than that of the rank, and if another is as near then
the rank is even. -/
structure IsNearest (q : ℚ) (rank : Nat) : Prop where
  closest : ∀ r, |(units rank : ℚ) - q| ≤ |(units r : ℚ) - q|
  even_of_tie : ∀ r, r ≠ rank → |(units r : ℚ) - q| = |(units rank : ℚ) - q| → Even rank

theorem binade_eq : binade = 2 ^ 52 := rfl

/-- Below the ranks spaced `2 ^ shift` units apart magnitudes are small, and from there on they
are multiples of that many units. -/
theorem units_multiple_or_lt (shift r : Nat) :
    (∃ m, units r = m * 2 ^ shift) ∨ shift ≠ 0 ∧ units r < binade * 2 ^ shift := by
  obtain ⟨n, hr, hn, h⟩ := exists_shift r
  have hunits := units_shift hn.le h
  rw [← hr] at hunits
  rcases Nat.lt_or_ge (r / binade - 1) shift with hlt | hge
  · refine .inr ⟨by omega, ?_⟩
    calc units r = n * 2 ^ (r / binade - 1) := hunits
      _ < 2 * binade * 2 ^ (r / binade - 1) := Nat.mul_lt_mul_of_pos_right hn (Nat.two_pow_pos _)
      _ = binade * 2 ^ (r / binade - 1 + 1) := by ring
      _ ≤ binade * 2 ^ shift := Nat.mul_le_mul_left _ (Nat.pow_le_pow_right two_pos hlt)
  · refine .inl ⟨n * 2 ^ (r / binade - 1 - shift), ?_⟩
    rw [hunits, Nat.mul_assoc, ← Nat.pow_add, Nat.sub_add_cancel hge]

/-- Rounding among the multiples of `2 ^ shift` is rounding to the nearest rank, where only
smaller magnitudes are spaced more closely. -/
theorem isNearest_of_multiple {q : ℚ} {shift n : Nat} (hn : n ≤ 2 * binade)
    (hshift : shift = 0 ∨ binade ≤ n) (hq : shift = 0 ∨ (binade * 2 ^ shift : ℚ) ≤ q)
    (hclosest : ∀ m : Nat, |(n : ℚ) - q / 2 ^ shift| ≤ |(m : ℚ) - q / 2 ^ shift|)
    (heven : ∀ m : Nat, m ≠ n → |(m : ℚ) - q / 2 ^ shift| = |(n : ℚ) - q / 2 ^ shift| → Even n) :
    IsNearest q (shift * binade + n) := by
  have hpos : (0 : ℚ) < 2 ^ shift := by positivity
  have hscale : ∀ m : Nat, |(m : ℚ) * 2 ^ shift - q| = |(m : ℚ) - q / 2 ^ shift| * 2 ^ shift := by
    intro m
    rw [← abs_of_pos hpos, ← abs_mul, abs_of_pos hpos, sub_mul, div_mul_cancel₀ _ hpos.ne']
  have hunits : (units (shift * binade + n) : ℚ) = n * 2 ^ shift := by
    exact_mod_cast units_shift hn hshift
  have hlow : ∀ r, shift ≠ 0 → units r < binade * 2 ^ shift →
      |(n : ℚ) * 2 ^ shift - q| < |(units r : ℚ) - q| := by
    intro r hne hlt
    have hq := hq.resolve_left hne
    have hlt : (units r : ℚ) < binade * 2 ^ shift := by exact_mod_cast hlt
    calc |(n : ℚ) * 2 ^ shift - q| ≤ |(binade : ℚ) * 2 ^ shift - q| := by
          rw [hscale, hscale]
          exact mul_le_mul_of_nonneg_right (hclosest binade) hpos.le
      _ < |(units r : ℚ) - q| := by
          rw [← not_le, abs_sub_le_abs_sub_iff hlt]
          linarith
  constructor
  · intro r
    rw [hunits]
    rcases units_multiple_or_lt shift r with ⟨m, hm⟩ | ⟨hne, hlt⟩
    · rw [hm, Nat.cast_mul, Nat.cast_pow, Nat.cast_ofNat, hscale, hscale]
      exact mul_le_mul_of_nonneg_right (hclosest m) hpos.le
    · exact (hlow r hne hlt).le
  · intro r hr htie
    rw [hunits] at htie
    rcases units_multiple_or_lt shift r with ⟨m, hm⟩ | ⟨hne, hlt⟩
    · have hmn : m ≠ n := by
        rintro rfl
        exact hr (units_strictMono.injective (hm.trans (units_shift hn hshift).symm))
      rw [hm, Nat.cast_mul, Nat.cast_pow, Nat.cast_ofNat, hscale, hscale] at htie
      have hn' := heven m hmn (mul_right_cancel₀ hpos.ne' htie)
      exact ((even_iff_two_dvd.mpr ⟨2 ^ 51, rfl⟩ : Even binade).mul_left shift).add hn'
    · exact absurd htie (hlow r hne hlt).ne'

/-- How far a quotient is shifted when it is rounded: to 53 digits, unless it has fewer. -/
theorem shift_bounds (scaled : Nat) {den : Nat} (h : 0 < den) :
    let shift := (scaled / den).log2 - 52
    scaled < den * 2 ^ shift * (2 * binade) ∧
      (shift = 0 ∨ binade * (den * 2 ^ shift) ≤ scaled) := by
  intro shift
  have hlt : scaled / den < 2 ^ (shift + 53) :=
    Nat.lt_log2_self.trans_le (Nat.pow_le_pow_right two_pos (by omega))
  have hpow : den * 2 ^ (shift + 53) = den * 2 ^ shift * (2 * binade) := by
    rw [binade_eq]
    ring
  refine ⟨?_, ?_⟩
  · rw [← hpow, Nat.mul_comm]
    exact (Nat.div_lt_iff_lt_mul h).mp hlt
  · refine or_iff_not_imp_left.mpr fun hshift => ?_
    have hne : scaled / den ≠ 0 := by
      intro hzero
      simp [shift, hzero] at hshift
    have hle : 2 ^ (shift + 52) ≤ scaled / den := by
      rw [show shift + 52 = (scaled / den).log2 by omega]
      exact Nat.log2_self_le hne
    have hmul := (Nat.le_div_iff_mul_le h).mp hle
    calc binade * (den * 2 ^ shift) = 2 ^ (shift + 52) * den := by rw [binade_eq]; ring
      _ ≤ scaled := hmul

/-- A shifted quotient is rounded to a whole number of 53 digits, or to the one behind them. -/
theorem roundHalfEven_shift_bounds (scaled : Nat) {den : Nat} (h : 0 < den) :
    let shift := (scaled / den).log2 - 52
    roundHalfEven scaled (den * 2 ^ shift) ≤ 2 * binade ∧
      (shift = 0 ∨ binade ≤ roundHalfEven scaled (den * 2 ^ shift)) := by
  intro shift
  obtain ⟨hlt, hge⟩ := shift_bounds scaled h
  have hpos : 0 < den * 2 ^ shift := Nat.mul_pos h (Nat.two_pow_pos _)
  have hpos' : (0 : ℚ) < (den * 2 ^ shift : ℕ) := Nat.cast_pos.mpr hpos
  obtain ⟨hhalf₁, hhalf₂⟩ := abs_le.mp (abs_roundHalfEven_sub_le_half scaled hpos).1
  refine ⟨?_, hge.imp_right fun hge => ?_⟩
  · have hx : (scaled : ℚ) / (den * 2 ^ shift : ℕ) < 2 * binade := by
      rw [div_lt_iff₀ hpos', mul_comm]
      exact_mod_cast hlt
    have hn : (roundHalfEven scaled (den * 2 ^ shift) : ℚ) < (2 * binade + 1 : ℕ) := by
      push_cast
      linarith
    exact Nat.le_of_lt_succ (Nat.cast_lt.mp hn)
  · have hx : (binade : ℚ) ≤ scaled / (den * 2 ^ shift : ℕ) := by
      rw [le_div_iff₀ hpos']
      exact_mod_cast hge
    have hn : (binade : ℚ) < (roundHalfEven scaled (den * 2 ^ shift) + 1 : ℕ) := by
      push_cast
      linarith
    exact Nat.le_of_lt_succ (Nat.cast_lt.mp hn)

/-- A quotient is rounded to its nearest rank. -/
theorem isNearest_nearestRank (num : Nat) {den : Nat} (h : 0 < den) :
    IsNearest (num * unitsInOne / den) (nearestRank num den) := by
  obtain ⟨hle, hbinade⟩ := roundHalfEven_shift_bounds (num * unitsInOne) h
  obtain ⟨-, hge⟩ := shift_bounds (num * unitsInOne) h
  unfold nearestRank
  simp only [Nat.pow_eq]
  rw [← Nat.cast_mul]
  generalize num * unitsInOne = scaled at *
  generalize (scaled / den).log2 - 52 = shift at *
  have hpos : 0 < den * 2 ^ shift := Nat.mul_pos h (Nat.two_pow_pos _)
  have hq : (scaled : ℚ) / den / 2 ^ shift = scaled / (den * 2 ^ shift : ℕ) := by
    rw [div_div, Nat.cast_mul, Nat.cast_pow, Nat.cast_ofNat]
  refine isNearest_of_multiple hle hbinade (hge.imp_right fun hge => ?_) ?_ ?_
  · rw [le_div_iff₀ (Nat.cast_pos.mpr h)]
    calc (binade : ℚ) * 2 ^ shift * den = (binade * (den * 2 ^ shift) : ℕ) := by push_cast; ring
      _ ≤ scaled := Nat.cast_le.mpr hge
  · rw [hq]
    exact abs_roundHalfEven_sub_le scaled hpos
  · rw [hq]
    exact fun m => even_roundHalfEven scaled hpos

/-! ## Where rounding changes -/

namespace IsNearest

variable {q q' : ℚ} {rank rank' r : Nat}

/-- Up to the middle between two ranks numbers are rounded to no more than the first. -/
theorem le_iff (h : IsNearest q rank) (r : Nat) :
    rank ≤ r ↔ 2 * q < units r + units (r + 1) ∨ 2 * q = units r + units (r + 1) ∧ Even r := by
  have hstep : (units r : ℚ) < units (r + 1) := Nat.cast_lt.mpr (units_strictMono r.lt_succ_self)
  constructor
  · intro hle
    have hrank : (units rank : ℚ) ≤ units r := Nat.cast_le.mpr (units_strictMono.monotone hle)
    have hmid := (abs_sub_le_abs_sub_iff (hrank.trans_lt hstep) q).mp (h.closest (r + 1))
    have hle : 2 * q ≤ units r + units (r + 1) := by linarith
    rcases hle.lt_or_eq with hlt | heq
    · exact .inl hlt
    · -- in the middle the rank is the first of the two, and the other one is as near
      have hunits : (units rank : ℚ) = units r := by linarith
      obtain rfl := units_strictMono.injective (Nat.cast_injective hunits)
      have htie := (abs_sub_le_abs_sub_iff' hstep q).mpr heq.ge
      exact .inr ⟨heq, h.even_of_tie _ rank.succ_ne_self (htie.antisymm (h.closest _))⟩
  · intro hmid
    by_contra hlt
    have hle : r + 1 ≤ rank := by omega
    have hrank : (units (r + 1) : ℚ) ≤ units rank := Nat.cast_le.mpr (units_strictMono.monotone hle)
    have hge := (abs_sub_le_abs_sub_iff' (hstep.trans_le hrank) q).mp (h.closest r)
    rcases hmid with hmid | ⟨hmid, heven⟩
    · linarith
    · have hunits : (units rank : ℚ) = units (r + 1) := by linarith
      obtain rfl := units_strictMono.injective (Nat.cast_injective hunits)
      have htie := (abs_sub_le_abs_sub_iff hstep q).mpr hmid.le
      have hnext := h.even_of_tie r r.succ_ne_self.symm (htie.antisymm (h.closest r))
      exact Nat.not_even_iff_odd.mpr heven.add_one hnext

theorem mono (h : IsNearest q rank) (h' : IsNearest q' rank') (hle : q ≤ q') : rank ≤ rank' := by
  rw [h.le_iff]
  rcases (h'.le_iff rank').mp le_rfl with hlt | ⟨heq, heven⟩
  · exact .inl (by linarith)
  · rcases hle.lt_or_eq with hlt | rfl
    · exact .inl (by linarith)
    · exact .inr ⟨heq, heven⟩

theorem unique (h : IsNearest q rank) (h' : IsNearest q rank') : rank = rank' :=
  le_antisymm (h.mono h' le_rfl) (h'.mono h le_rfl)

end IsNearest

/-- A whole number is rounded to a whole number. -/
theorem unitsInOne_dvd_units_nearestRank (n : Nat) : unitsInOne ∣ units (nearestRank n 1) := by
  obtain ⟨hle, hbinade⟩ := roundHalfEven_shift_bounds (n * unitsInOne) Nat.one_pos
  have hunits : units (nearestRank n 1) = _ := units_shift hle hbinade
  generalize (n * unitsInOne / 1).log2 - 52 = shift at hunits
  rw [hunits, Nat.one_mul]
  unfold unitsInOne
  generalize 1074 = k
  simp only [Nat.pow_eq]
  rcases Nat.le_total shift k with hshift | hshift
  · obtain ⟨i, rfl⟩ := Nat.exists_eq_add_of_le' hshift
    rw [Nat.pow_add, ← Nat.mul_assoc, roundHalfEven_mul_self _ (Nat.two_pow_pos shift)]
    exact ⟨n, by ring⟩
  · exact (Nat.pow_dvd_pow 2 hshift).mul_left _

theorem isNearest_units (rank : Nat) : IsNearest (units rank) rank := by
  constructor
  · intro r
    rw [sub_self, abs_zero]
    exact abs_nonneg _
  · intro r hr htie
    rw [sub_self, abs_zero, abs_eq_zero, sub_eq_zero] at htie
    exact absurd (units_strictMono.injective (Nat.cast_injective htie)) hr

/-! ## Rounding rational numbers -/

/-- The rank to which a rational number that is not negative is rounded. -/
def rankOf (q : ℚ) : Nat := nearestRank q.num.toNat q.den

section RankOf

variable {p q : ℚ}

theorem isNearest_rankOf (hq : 0 ≤ q) : IsNearest (q * unitsInOne) (rankOf q) := by
  have h := isNearest_nearestRank q.num.toNat q.den_pos
  have hnum : (q.num.toNat : ℚ) = q.num := by
    exact_mod_cast Int.toNat_of_nonneg (Rat.num_nonneg.mpr hq)
  rw [hnum, mul_div_right_comm, Rat.num_div_den] at h
  exact h

theorem nearestRank_eq_rankOf (num : Nat) {den : Nat} (h : 0 < den) :
    nearestRank num den = rankOf (num / den) := by
  have hnearest := isNearest_nearestRank num h
  rw [mul_div_right_comm] at hnearest
  exact hnearest.unique (isNearest_rankOf (by positivity))

theorem rankOf_mono (hp : 0 ≤ p) (h : p ≤ q) : rankOf p ≤ rankOf q :=
  (isNearest_rankOf hp).mono (isNearest_rankOf (hp.trans h))
    (mul_le_mul_of_nonneg_right h unitsInOne_pos.le)

theorem rankOf_units (rank : Nat) : rankOf (units rank / unitsInOne) = rank := by
  have h := isNearest_rankOf (q := units rank / unitsInOne) (by positivity)
  rw [div_mul_cancel₀ _ unitsInOne_pos.ne'] at h
  exact h.unique (isNearest_units rank)

end RankOf

end Binary64

end LoxLex
