import Mathlib.Algebra.Order.Floor.Semifield
import Mathlib.Data.Rat.Floor
import LoxLex.Number.Shortest
import LoxLex.Proofs.DecimalText

/-!
# The shortest decimal

On a grid of decimals everything between a number and a decimal that reads back as it reads back
too. So if any decimal of the grid reads back, a neighbour of the number does, and the search for
the shortest decimal cannot miss it. It ends because a double has less than 54 binary digits:
seventeen decimal ones are enough to be closer to it than to any other.

## Main definitions

* `Binary64.IsShortest` — a decimal that reads back, and none with fewer digits does.

## Main statements

* `Binary64.exists_neighbour_of_lt`: if a decimal of few digits reads back, a neighbour of as few
  digits does.
* `Binary64.isShortest_shortest`: the search finds the shortest decimal.
-/

namespace LoxLex

namespace Decimal

/-! ## Neighbours on a grid -/

/-- The neighbours of a magnitude are the multiples of `10 ^ exponent` around it. -/
theorem mem_neighbours_iff {d : Decimal} (units : Nat) (exponent : ℤ) :
    let below := ⌊(units : ℚ) / Binary64.unitsInOne / 10 ^ exponent⌋₊
    d ∈ neighbours units exponent ↔ d = ⟨below, exponent⟩ ∨ d = ⟨below + 1, exponent⟩ := by
  intro below
  have hratio : (units : ℚ) / Binary64.unitsInOne / 10 ^ exponent =
      (units * Nat.pow 10 (-exponent).toNat : ℕ) /
        (Binary64.unitsInOne * Nat.pow 10 exponent.toNat : ℕ) := by
    have hexponent : exponent = exponent.toNat - (-exponent).toNat := by omega
    rw [Nat.pow_eq, Nat.pow_eq]
    push_cast
    nth_rewrite 1 [hexponent]
    rw [zpow_sub₀ (by norm_num), zpow_natCast, zpow_natCast]
    have := Binary64.unitsInOne_pos.ne'
    field_simp
  have hbelow : below = units * Nat.pow 10 (-exponent).toNat /
      (Binary64.unitsInOne * Nat.pow 10 exponent.toNat) := by
    rw [← Nat.floor_div_eq_div (K := ℚ), ← hratio]
  unfold neighbours
  generalize units * Nat.pow 10 (-exponent).toNat = num at hbelow
  generalize Binary64.unitsInOne * Nat.pow 10 exponent.toNat = den at hbelow
  rcases roundHalfEven_eq_or num den with h | h <;> rw [← hbelow] at h
  · simp [← hbelow, h]
  · simp [← hbelow, h, or_comm]

/-! ## Zeros at the end -/

theorem value_strip (d : Decimal) : d.strip.value = d.value := by
  fun_induction strip d with
  | case1 d h ih =>
    obtain ⟨n, hn⟩ := Nat.dvd_of_mod_eq_zero h.2
    rw [ih, value, value, zpow_add_one₀ (by norm_num), hn, Nat.mul_div_cancel_left n (by decide)]
    push_cast
    ring
  | case2 d h => rfl

/-- Up to `10 ^ k` a significand has at most `k` digits when its zeros are gone. -/
theorem significand_strip_lt {d : Decimal} {k : Nat} (hk : 0 < k) (h : d.significand ≤ 10 ^ k) :
    d.strip.significand < 10 ^ k := by
  fun_induction strip d with
  | case1 d hzero ih => exact ih (by dsimp only; omega)
  | case2 d hzero =>
    refine h.lt_of_ne fun heq => hzero ?_
    rw [heq]
    exact ⟨(Nat.pow_pos (by decide)).ne', Nat.mod_eq_zero_of_dvd (dvd_pow_self 10 hk.ne')⟩

end Decimal

namespace Binary64

variable {rank u n k : Nat} {q : ℚ} {e : ℤ}

/-! ## Between a number and what reads back as it -/

theorem rankOf_eq_of_between {p p' : ℚ} (hp : 0 ≤ p) (h : rankOf p = rank) (h' : rankOf p' = rank)
    (hle : p ≤ q) (hle' : q ≤ p') : rankOf q = rank :=
  le_antisymm (h' ▸ rankOf_mono (hp.trans hle) hle') (h ▸ rankOf_mono hp hle)

/-- A number lies between two multiples of a power of ten. -/
theorem floor_grid_bounds {v : ℚ} (hv : 0 ≤ v) (e : ℤ) :
    (⌊v / 10 ^ e⌋₊ : ℚ) * 10 ^ e ≤ v ∧ v < (⌊v / 10 ^ e⌋₊ + 1) * 10 ^ e := by
  have hgrid : (0 : ℚ) < 10 ^ e := by positivity
  rw [← le_div_iff₀ hgrid, ← div_lt_iff₀ hgrid]
  exact ⟨Nat.floor_le (div_nonneg hv hgrid.le), Nat.lt_floor_add_one _⟩

/-- If a decimal of a grid reads back as a number, then a neighbour of the number does. -/
theorem exists_neighbour (h : rankOf (n * 10 ^ e) = rank) :
    ∃ d ∈ Decimal.neighbours (units rank) e, d.nearestRank = rank := by
  have hgrid : (0 : ℚ) < 10 ^ e := by positivity
  obtain ⟨hfloor, hfloor'⟩ := floor_grid_bounds (div_unitsInOne_nonneg (units rank)) e
  rcases Nat.lt_or_ge ⌊(units rank : ℚ) / unitsInOne / 10 ^ e⌋₊ n with hlt | hge
  · have hle : (⌊(units rank : ℚ) / unitsInOne / 10 ^ e⌋₊ + 1 : ℚ) ≤ n := by exact_mod_cast hlt
    refine ⟨⟨_, e⟩, (Decimal.mem_neighbours_iff _ _).mpr (.inr rfl), ?_⟩
    rw [Decimal.nearestRank_eq, Decimal.value]
    push_cast
    exact rankOf_eq_of_between (div_unitsInOne_nonneg _) (rankOf_units rank) h hfloor'.le
      (mul_le_mul_of_nonneg_right hle hgrid.le)
  · have hle : (n : ℚ) ≤ ⌊(units rank : ℚ) / unitsInOne / 10 ^ e⌋₊ := Nat.cast_le.mpr hge
    refine ⟨⟨_, e⟩, (Decimal.mem_neighbours_iff _ _).mpr (.inl rfl), ?_⟩
    rw [Decimal.nearestRank_eq, Decimal.value]
    exact rankOf_eq_of_between (by positivity) h (rankOf_units rank)
      (mul_le_mul_of_nonneg_right hle hgrid.le) hfloor

/-! ## Seventeen digits -/

/-- What differs from a number by one half of its seventeenth digit at most reads back as it. -/
theorem rankOf_eq_of_near (hq : 0 ≤ q)
    (h : 2 * 10 ^ 16 * |q - units rank / unitsInOne| ≤ units rank / unitsInOne) :
    rankOf q = rank := by
  have hnearest := isNearest_rankOf hq
  have hclose : 2 * 10 ^ 16 * |q * unitsInOne - units rank| ≤ units rank := by
    rw [abs_sub_comm, abs_units_sub, abs_sub_comm, ← mul_assoc]
    exact (le_div_iff₀ unitsInOne_pos).mp h
  have habove := le_abs_self (q * unitsInOne - units rank)
  have hbelow := neg_le_abs (q * unitsInOne - units rank)
  have hulp : ∀ r, (0 : ℚ) < 2 ^ (r / binade - 1) ∧
      (units r : ℚ) < 2 ^ 53 * 2 ^ (r / binade - 1) ∧
      (units (r + 1) : ℚ) = units r + 2 ^ (r / binade - 1) := by
    intro r
    have hlt := units_lt_ulp r
    rw [binade_eq, ← pow_succ'] at hlt
    exact ⟨by positivity, by exact_mod_cast hlt, by exact_mod_cast units_succ r⟩
  apply le_antisymm
  · obtain ⟨hpos, hlt, hsucc⟩ := hulp rank
    exact (hnearest.le_iff rank).mpr (.inl (by linarith))
  · cases rank with
    | zero => exact Nat.zero_le _
    | succ r =>
      obtain ⟨hpos, hlt, hsucc⟩ := hulp r
      by_contra hle
      have hmid := (hnearest.le_iff r).mp (by omega)
      have hmid : 2 * (q * unitsInOne) ≤ units r + units (r + 1) := hmid.elim le_of_lt (·.1.le)
      linarith

/-- If the grid is fine enough for seventeen digits, a neighbour reads back. -/
theorem exists_neighbour_of_fine (h : 10 ^ 16 * (10 : ℚ) ^ e ≤ units rank / unitsInOne) :
    ∃ d ∈ Decimal.neighbours (units rank) e, d.nearestRank = rank := by
  obtain ⟨hfloor, hfloor'⟩ := floor_grid_bounds (div_unitsInOne_nonneg (units rank)) e
  rw [add_mul, one_mul] at hfloor'
  generalize hn : ⌊(units rank : ℚ) / unitsInOne / 10 ^ e⌋₊ = n at hfloor hfloor'
  rcases le_or_gt (2 * ((units rank : ℚ) / unitsInOne - n * 10 ^ e)) (10 ^ e) with hnear | hnear
  · refine exists_neighbour (n := n) (rankOf_eq_of_near (by positivity) ?_)
    rw [abs_sub_comm, abs_of_nonneg (by linarith)]
    linarith
  · refine exists_neighbour (n := n + 1) (rankOf_eq_of_near (by positivity) ?_)
    push_cast
    rw [add_mul, one_mul, abs_of_pos (by linarith)]
    linarith

/-! ## Fewer digits -/

/-- A number with a floor of `m` when it is scaled by `10 ^ k` is as great as the digits of `m`
tell. -/
theorem length_decimal_bounds {v : ℚ} (hv : 0 ≤ v) (k : Nat) (hm : ⌊v * 10 ^ k⌋₊ ≠ 0) :
    (10 : ℚ) ^ ((Bytes.decimal ⌊v * 10 ^ k⌋₊).length - k - 1 : ℤ) ≤ v ∧
      v < (10 : ℚ) ^ ((Bytes.decimal ⌊v * 10 ^ k⌋₊).length - k : ℤ) := by
  have hscale : (0 : ℚ) < 10 ^ k := by positivity
  have hfloor := Nat.floor_le (mul_nonneg hv hscale.le)
  have hfloor' := Nat.lt_floor_add_one (v * 10 ^ k)
  generalize ⌊v * 10 ^ k⌋₊ = m at hm hfloor hfloor'
  have hlength := List.length_pos_iff.mpr (Bytes.decimal_ne_nil m)
  have hle : (10 : ℚ) ^ ((Bytes.decimal m).length - 1) ≤ m := by
    exact_mod_cast Bytes.pow_length_decimal_le hm
  have hlt : (m + 1 : ℚ) ≤ 10 ^ (Bytes.decimal m).length := by
    exact_mod_cast Bytes.lt_pow_length_decimal m
  generalize (Bytes.decimal m).length = length at *
  rw [show (length : ℤ) - k - 1 = (length - 1 : ℕ) - (k : ℤ) by omega, zpow_sub₀ (by norm_num),
    zpow_sub₀ (by norm_num), zpow_natCast, zpow_natCast, zpow_natCast, div_le_iff₀ hscale,
    lt_div_iff₀ hscale]
  exact ⟨hle.trans hfloor, hfloor'.trans_le hlt⟩

theorem decimalExponent_eq (u : Nat) {k : Nat} (hk : 324 = k) : decimalExponent u =
    ((Bytes.decimal ⌊(u / unitsInOne : ℚ) * 10 ^ k⌋₊).length - k : ℤ) := by
  have hfloor : ⌊(u / unitsInOne : ℚ) * 10 ^ k⌋₊ = u * Nat.pow 10 k / unitsInOne := by
    rw [← Nat.floor_div_eq_div (K := ℚ), Nat.pow_eq, Nat.cast_mul, Nat.cast_pow, Nat.cast_ofNat,
      mul_div_right_comm]
  rw [hfloor, decimalExponent, ← Nat.cast_ofNat (R := ℤ), hk]

/-- The decimal exponent tells between which powers of ten a magnitude lies. -/
theorem decimalExponent_bounds (hu : u ≠ 0) :
    (10 : ℚ) ^ (decimalExponent u - 1) ≤ u / unitsInOne ∧
      (u / unitsInOne : ℚ) < 10 ^ decimalExponent u := by
  have hleast : unitsInOne ≤ Nat.pow 10 324 := by decide +kernel
  generalize hk : 324 = k at hleast
  have hv : (1 : ℚ) ≤ u / unitsInOne * 10 ^ k := by
    have hleast : (unitsInOne : ℚ) ≤ 10 ^ k := by exact_mod_cast hleast
    have hu : (1 : ℚ) ≤ u := Nat.one_le_cast.mpr (Nat.pos_of_ne_zero hu)
    rw [div_mul_eq_mul_div, one_le_div unitsInOne_pos]
    exact hleast.trans (le_mul_of_one_le_left (by positivity) hu)
  rw [decimalExponent_eq u hk]
  exact length_decimal_bounds (div_unitsInOne_nonneg u) k
    (Nat.floor_pos.mpr hv).ne'

theorem significand_le_of_mem_neighbours {d : Decimal} (hu : u ≠ 0)
    (h : d ∈ Decimal.neighbours u (decimalExponent u - k)) : d.significand ≤ 10 ^ k := by
  have hlt : ⌊(u : ℚ) / unitsInOne / 10 ^ (decimalExponent u - k)⌋₊ < 10 ^ k := by
    rw [Nat.floor_lt (div_nonneg (div_unitsInOne_nonneg u) (by positivity)),
      div_lt_iff₀ (by positivity), Nat.cast_pow, Nat.cast_ofNat, ← zpow_natCast,
      ← zpow_add₀ (by norm_num), add_sub_cancel]
    exact (decimalExponent_bounds hu).2
  rcases (Decimal.mem_neighbours_iff _ _).mp h with rfl | rfl
  · exact hlt.le
  · exact hlt

/-- If a decimal of few digits reads back, a neighbour with as few digits does. -/
theorem exists_neighbour_of_lt (hk : 0 < k) (hn : n < 10 ^ k) (hrank : rank ≠ 0)
    (h : rankOf (n * 10 ^ e) = rank) :
    ∃ d ∈ Decimal.neighbours (units rank) (decimalExponent (units rank) - k),
      d.nearestRank = rank := by
  have hu := units_ne_zero hrank
  obtain ⟨htop, -⟩ := decimalExponent_bounds hu
  generalize decimalExponent (units rank) = top at htop
  rcases le_or_gt (top - k) e with hcoarse | hfine
  · refine exists_neighbour (n := n * 10 ^ (e - (top - k)).toNat) ?_
    have hexponent : e = (e - (top - k)).toNat + (top - k) := by omega
    rw [hexponent, zpow_add₀ (by norm_num), zpow_natCast, ← mul_assoc] at h
    exact_mod_cast h
  · -- the decimal is below the power of ten that the number is not below
    refine exists_neighbour (n := 10 ^ (k - 1)) ?_
    have hpower : ((10 ^ (k - 1) : ℕ) : ℚ) * 10 ^ (top - k) = 10 ^ (top - 1) := by
      rw [Nat.cast_pow, Nat.cast_ofNat, ← zpow_natCast, ← zpow_add₀ (by norm_num)]
      congr 1
      omega
    have hle : (n * 10 ^ e : ℚ) ≤ 10 ^ (top - 1) := by
      have hn : (n : ℚ) ≤ 10 ^ k := by exact_mod_cast hn.le
      calc (n * 10 ^ e : ℚ) ≤ 10 ^ k * 10 ^ e := by gcongr
        _ = 10 ^ (k + e) := by rw [zpow_add₀ (by norm_num), zpow_natCast]
        _ ≤ 10 ^ (top - 1) := zpow_le_zpow_right₀ (by norm_num) (by omega)
    rw [hpower]
    exact rankOf_eq_of_between (by positivity) h (rankOf_units rank) hle htop

/-! ## The search -/

/-- What is found in lists that are searched in turn is found in the first list that has any. -/
theorem exists_first_of_find? {α : Type} {f : Nat → List α} {p : α → Bool} {first count : Nat}
    {a : α} (h : ((List.range' first count).flatMap f).find? p = some a) :
    ∃ i, first ≤ i ∧ i < first + count ∧ a ∈ f i ∧ p a ∧
      ∀ j, first ≤ j → j < i → ∀ b ∈ f j, ¬ p b := by
  rw [List.find?_flatMap, List.findSome?_eq_some_iff] at h
  obtain ⟨before, i, behind, hrange, hfind, hnone⟩ := h
  obtain ⟨size, hsize, rfl, hrest⟩ := List.range'_eq_append_iff.mp hrange
  obtain ⟨rfl, hpos, -⟩ := List.range'_eq_cons_iff.mp hrest.symm
  refine ⟨_, by omega, by omega, List.mem_of_find?_eq_some hfind, List.find?_some hfind, ?_⟩
  intro j hj hlt
  exact List.find?_eq_none.mp (hnone j (List.mem_range'_1.mpr (by omega)))

/-- Among the candidates is one that reads back. -/
theorem exists_candidate (hrank : rank ≠ 0) :
    ∃ d ∈ candidates (units rank), d.nearestRank = rank := by
  obtain ⟨htop, -⟩ := decimalExponent_bounds (units_ne_zero hrank)
  have hfine : (10 : ℚ) ^ 16 * 10 ^ (decimalExponent (units rank) - 17) ≤
      units rank / unitsInOne := by
    rw [← zpow_natCast, ← zpow_add₀ (by norm_num)]
    convert htop using 2
    push_cast
    ring
  obtain ⟨d, hmem, hread⟩ := exists_neighbour_of_fine hfine
  exact ⟨d, List.mem_flatMap.mpr ⟨17, by decide, hmem⟩, hread⟩

/-- The shortest decimal is found with the least number of digits with which any neighbour reads
back. -/
theorem exists_shortest_eq (hrank : rank ≠ 0) : ∃ count : Nat, 0 < count ∧ count ≤ 17 ∧
    (∃ d ∈ Decimal.neighbours (units rank) (decimalExponent (units rank) - count),
      d.nearestRank = rank ∧ shortest rank = d.strip) ∧
    ∀ k : Nat, 0 < k → k < count →
      ∀ d ∈ Decimal.neighbours (units rank) (decimalExponent (units rank) - k),
        d.nearestRank ≠ rank := by
  obtain ⟨d₀, hmem₀, hread₀⟩ := exists_candidate hrank
  have hsome : ((candidates (units rank)).find? (·.nearestRank == rank)).isSome :=
    List.find?_isSome.mpr ⟨d₀, hmem₀, beq_iff_eq.mpr hread₀⟩
  obtain ⟨d, hd⟩ := Option.isSome_iff_exists.mp hsome
  have hshortest : shortest rank = d.strip := by rw [shortest, hd, Option.getD_some]
  obtain ⟨count, hpos, hlt, hmem, hread, hfirst⟩ := exists_first_of_find? hd
  refine ⟨count, hpos, by omega, ⟨d, hmem, beq_iff_eq.mp hread, hshortest⟩, ?_⟩
  intro k hk hlt d hd hread
  exact hfirst k hk hlt d hd (beq_iff_eq.mpr hread)

/-- The decimal reads back as the magnitude of the rank, and if any other does then it has no
fewer digits. -/
structure IsShortest (rank : Nat) (d : Decimal) : Prop where
  reads : d.nearestRank = rank
  fewest : ∀ (n k : Nat) (e : ℤ), n < 10 ^ k → rankOf (n * 10 ^ e) = rank → d.significand < 10 ^ k

/-- The search finds the shortest decimal. -/
theorem isShortest_shortest (hrank : rank ≠ 0) : IsShortest rank (shortest rank) := by
  have hu := units_ne_zero hrank
  obtain ⟨count, hcount, -, ⟨d, hmem, hread, heq⟩, hnone⟩ := exists_shortest_eq hrank
  rw [heq]
  constructor
  · rw [Decimal.nearestRank_eq, Decimal.value_strip, ← Decimal.nearestRank_eq, hread]
  · intro n k e hn h
    have hk : 0 < k := by
      rcases Nat.eq_zero_or_pos k with rfl | hk
      · obtain rfl : n = 0 := by omega
        rw [Nat.cast_zero, zero_mul] at h
        exact absurd (h.symm.trans rankOf_zero) hrank
      · exact hk
    obtain ⟨d', hmem', hread'⟩ := exists_neighbour_of_lt hk hn hrank h
    have hle : count ≤ k := by
      by_contra hlt
      exact hnone k hk (by omega) d' hmem' hread'
    exact (Decimal.significand_strip_lt hcount (significand_le_of_mem_neighbours hu hmem)).trans_le
      (Nat.pow_le_pow_right (by decide) hle)

end Binary64

end LoxLex
