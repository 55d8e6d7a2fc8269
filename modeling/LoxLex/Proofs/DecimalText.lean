import LoxLex.Proofs.Numeral

/-!
# Decimals as text

A decimal is written as a numeral, with a power of ten behind it in scientific notation. Both
texts denote the decimal, and their digits are those of its significand.

## Main definitions

* `Numeral.Power` — what stands behind a numeral in scientific notation.
* `Numeral.Denotes` — the texts that denote a rational number.
* `Numeral.significant` — the digits of a text without the zeros in front.

## Main statements

* `Decimal.denotes_positional`, `Decimal.denotes_scientific`: both texts denote the decimal.
* `Numeral.Denotes.unique`: a text denotes at most one number.
* `Numeral.length_significant_le`: numbers below `10 ^ k` have at most `k` significant digits.
-/

namespace LoxLex

/-! ## Digits -/

namespace Bytes

variable {n k : Nat} {digits : Bytes}

theorem isDigit_digitChar (h : n < 10) : Byte.isDigit (Nat.digitChar n).toUInt8 := by
  revert h n
  decide

theorem digitValue_digitChar (h : n < 10) : Byte.digitValue (Nat.digitChar n).toUInt8 = n := by
  revert h n
  decide

theorem decimal_of_lt (h : n < 10) : decimal n = [(Nat.digitChar n).toUInt8] := by
  rw [decimal, Nat.toDigits_of_lt_base h, List.map_singleton]

/-- The last digit comes off the end. -/
theorem decimal_of_le (h : 10 ≤ n) :
    decimal n = decimal (n / 10) ++ [(Nat.digitChar (n % 10)).toUInt8] := by
  rw [decimal, Nat.toDigits_of_base_le (by decide) h, List.map_append, List.map_singleton, decimal]

theorem decimal_ne_nil (n : Nat) : decimal n ≠ [] :=
  List.map_eq_nil_iff.not.mpr Nat.toDigits_ne_nil

theorem isDigit_of_mem_decimal (n : Nat) : ∀ c ∈ decimal n, c.isDigit := by
  induction n using Nat.strong_induction_on with
  | _ n ih =>
    rcases Nat.lt_or_ge n 10 with h | h
    · rw [decimal_of_lt h]
      simpa using isDigit_digitChar h
    · rw [decimal_of_le h, List.forall_mem_append]
      exact ⟨ih _ (by omega), by simpa using isDigit_digitChar (Nat.mod_lt n (by decide))⟩

@[simp] theorem ofDecimal_decimal (n : Nat) : ofDecimal (decimal n) = n := by
  induction n using Nat.strong_induction_on with
  | _ n ih =>
    rcases Nat.lt_or_ge n 10 with h | h
    · rw [decimal_of_lt h, ← List.nil_append [_], ofDecimal_concat, digitValue_digitChar h]
      simp
    · rw [decimal_of_le h, ofDecimal_concat, ih _ (by omega),
        digitValue_digitChar (Nat.mod_lt n (by decide))]
      omega

theorem length_decimal_le_iff (hk : 0 < k) : (decimal n).length ≤ k ↔ n < 10 ^ k := by
  rw [decimal, List.length_map, Nat.length_toDigits_le_iff (by decide) hk]

theorem lt_pow_length_decimal (n : Nat) : n < 10 ^ (decimal n).length :=
  (length_decimal_le_iff (List.length_pos_iff.mpr (decimal_ne_nil n))).mp le_rfl

theorem pow_length_decimal_le (h : n ≠ 0) : 10 ^ ((decimal n).length - 1) ≤ n := by
  rcases Nat.eq_zero_or_pos ((decimal n).length - 1) with hzero | hpos
  · rw [hzero]
    omega
  · rw [← not_lt, ← length_decimal_le_iff hpos]
    omega

theorem ofDecimal_append (digits digits' : Bytes) :
    ofDecimal (digits ++ digits') =
      ofDecimal digits * 10 ^ digits'.length + ofDecimal digits' := by
  induction digits' using List.reverseRecOn with
  | nil => simp
  | append_singleton digits' b ih =>
    rw [← List.append_assoc, ofDecimal_concat, ih, ofDecimal_concat, List.length_append,
      List.length_singleton, Nat.pow_succ]
    ring

theorem ofDecimal_cons (b : Byte) (digits : Bytes) :
    ofDecimal (b :: digits) = b.digitValue * 10 ^ digits.length + ofDecimal digits := by
  rw [← List.singleton_append, ofDecimal_append, ← List.nil_append [b], ofDecimal_concat]
  simp

@[simp] theorem ofDecimal_replicate_zero (count : Nat) :
    ofDecimal (List.replicate count '0'.toUInt8) = 0 := by
  induction count with
  | zero => rfl
  | succ count ih =>
    rw [List.replicate_succ, ofDecimal_cons, ih, show Byte.digitValue '0'.toUInt8 = 0 from rfl]
    simp

/-- Without the zeros in front, a number below `10 ^ k` has at most `k` digits. -/
theorem length_dropWhile_zero_le (hdigits : ∀ c ∈ digits, c.isDigit)
    (h : ofDecimal digits < 10 ^ k) : (digits.dropWhile (· = '0'.toUInt8)).length ≤ k := by
  induction digits with
  | nil => exact Nat.zero_le k
  | cons b digits ih =>
    rw [List.forall_mem_cons] at hdigits
    rw [ofDecimal_cons] at h
    by_cases hb : b = '0'.toUInt8
    · rw [List.dropWhile_cons_of_pos (by simpa using hb)]
      exact ih hdigits.2 (by omega)
    · have hvalue : 1 ≤ b.digitValue := by
        have hdigit := Byte.isDigit_iff.mp hdigits.1
        have hne : b.toNat ≠ 48 := fun heq => hb (UInt8.toNat_inj.mp heq)
        have hzero : '0'.toNat = 48 := rfl
        unfold Byte.digitValue
        omega
      rw [List.dropWhile_cons_of_neg (by simpa using hb), List.length_cons, Nat.succ_le_iff,
        ← Nat.pow_lt_pow_iff_right (a := 10) (by decide)]
      calc 10 ^ digits.length ≤ b.digitValue * 10 ^ digits.length :=
            Nat.le_mul_of_pos_left _ hvalue
        _ ≤ b.digitValue * 10 ^ digits.length + ofDecimal digits := Nat.le_add_right _ _
        _ < 10 ^ k := h

end Bytes

/-! ## Padded numerals -/

namespace Decimal

variable {n length : Nat}

theorem isDigit_of_mem_padded (length n : Nat) : ∀ c ∈ padded length n, c.isDigit := by
  rw [padded, List.leftpad, List.forall_mem_append]
  refine ⟨fun c hc => ?_, Bytes.isDigit_of_mem_decimal n⟩
  rw [List.eq_of_mem_replicate hc]
  rfl

@[simp] theorem ofDecimal_padded (length n : Nat) : Bytes.ofDecimal (padded length n) = n := by
  rw [padded, List.leftpad, Bytes.ofDecimal_append]
  simp

theorem length_padded (hlength : 0 < length) (h : n < 10 ^ length) :
    (padded length n).length = length := by
  rw [padded, List.length_leftpad, max_eq_left]
  exact (Bytes.length_decimal_le_iff hlength).mpr h

theorem padded_ne_nil (length n : Nat) : padded length n ≠ [] :=
  List.append_ne_nil_of_right_ne_nil _ (Bytes.decimal_ne_nil n)

end Decimal

/-! ## What texts denote -/

namespace Numeral

/-- What stands between a numeral and the power of ten that it is taken times. -/
def mark : Byte := 'e'.toUInt8

/-- The text behind a numeral that takes it times a power of ten: nothing, or a mark, a sign and
the exponent. -/
inductive Power : Bytes → ℤ → Prop where
  | none : Power [] 0
  | plus {digits : Bytes} (hne : digits ≠ []) (hdigits : ∀ c ∈ digits, c.isDigit) :
      Power (mark :: '+'.toUInt8 :: digits) (Bytes.ofDecimal digits)
  | minus {digits : Bytes} (hne : digits ≠ []) (hdigits : ∀ c ∈ digits, c.isDigit) :
      Power (mark :: '-'.toUInt8 :: digits) (-Bytes.ofDecimal digits)

/-- The texts that denote a rational number, in fixed or in scientific notation. -/
inductive Denotes : Bytes → ℚ → Prop where
  | intro {numeral power : Bytes} {exponent : ℤ} (hnumeral : Shape.number.Spells numeral)
      (hpower : Power power exponent) : Denotes (numeral ++ power) (value numeral * 10 ^ exponent)

/-- The digits of a text up to its mark, without the zeros in front. -/
def significant (text : Bytes) : Bytes :=
  ((text.takeWhile (· ≠ mark)).filter (·.isDigit)).dropWhile (· = '0'.toUInt8)

variable {numeral power power' text whole fraction : Bytes} {exponent exponent' : ℤ} {p q : ℚ}

theorem ne_mark_of_isDigit {b : Byte} (h : b.isDigit) : b ≠ mark := by
  rintro rfl
  cases h

theorem ne_mark_of_spells (h : Shape.number.Spells numeral) :
    ∀ c ∈ numeral, decide (c ≠ mark) = true := by
  intro c hc
  rw [decide_eq_true_iff]
  cases h with
  | whole hne hdigits => exact ne_mark_of_isDigit (hdigits c hc)
  | fractional hne hdigits hne' hfraction =>
    rw [List.mem_append, List.mem_cons] at hc
    rcases hc with hc | rfl | hc
    · exact ne_mark_of_isDigit (hdigits c hc)
    · decide
    · exact ne_mark_of_isDigit (hfraction c hc)

theorem Power.head? (h : Power power exponent) :
    ∀ c ∈ power.head?, decide (c ≠ mark) = false := by
  cases h <;> simp

theorem Power.unique (h : Power power exponent) (h' : Power power exponent') :
    exponent = exponent' := by
  have hsign : '+'.toUInt8 ≠ '-'.toUInt8 := by decide
  generalize hpower : power = power' at h'
  cases h <;> cases h' <;> simp_all [hsign.symm]

theorem takeWhile_append_power (hnumeral : Shape.number.Spells numeral)
    (hpower : Power power exponent) :
    (numeral ++ power).takeWhile (· ≠ mark) = numeral :=
  takeWhile_append_stop (ne_mark_of_spells hnumeral) hpower.head?

theorem Denotes.unique (h : Denotes text p) (h' : Denotes text q) : p = q := by
  obtain @⟨numeral, power, exponent, hnumeral, hpower⟩ := h
  generalize htext : numeral ++ power = text at h'
  obtain @⟨numeral', power', exponent', hnumeral', hpower'⟩ := h'
  have htake := congrArg (List.takeWhile (· ≠ mark)) htext
  rw [takeWhile_append_power hnumeral hpower, takeWhile_append_power hnumeral' hpower'] at htake
  subst htake
  obtain rfl := List.append_cancel_left htext
  rw [hpower.unique hpower']

theorem Denotes.of_spells (h : Shape.number.Spells text) : Denotes text (value text) := by
  have := Denotes.intro h .none
  rwa [List.append_nil, zpow_zero, mul_one] at this

theorem denotes_decimal (n : Nat) : Denotes (Bytes.decimal n) n := by
  have hdigits := Bytes.isDigit_of_mem_decimal n
  have hdenotes := Denotes.of_spells (.whole (Bytes.decimal_ne_nil n) hdigits)
  rwa [value_of_digits hdigits, Bytes.ofDecimal_decimal] at hdenotes

/-- A text that denotes a number starts with a digit. -/
theorem Denotes.exists_cons (h : Denotes text q) :
    ∃ b rest, text = b :: rest ∧ b.isDigit := by
  obtain ⟨hnumeral, hpower⟩ := h
  cases hnumeral with
  | whole hne hdigits =>
    obtain ⟨b, rest, rfl⟩ := List.exists_cons_of_ne_nil hne
    exact ⟨b, _, rfl, hdigits b List.mem_cons_self⟩
  | fractional hne hdigits hne' hfraction =>
    obtain ⟨b, rest, rfl⟩ := List.exists_cons_of_ne_nil hne
    exact ⟨b, _, rfl, hdigits b List.mem_cons_self⟩

/-! ## Numerals in parts -/

/-- A numeral with the given digits before and behind its dot. Without digits behind it there is
no dot. -/
def ofParts (whole fraction : Bytes) : Bytes :=
  whole ++ if fraction = [] then [] else Byte.dot :: fraction

section Parts

variable (hwhole : ∀ c ∈ whole, c.isDigit) (hfraction : ∀ c ∈ fraction, c.isDigit)
include hwhole hfraction

theorem spells_ofParts (hne : whole ≠ []) : Shape.number.Spells (ofParts whole fraction) := by
  unfold ofParts
  split
  · rw [List.append_nil]
    exact .whole hne hwhole
  · next hne' => exact .fractional hne hwhole hne' hfraction

theorem value_ofParts : value (ofParts whole fraction) =
    Bytes.ofDecimal (whole ++ fraction) / 10 ^ fraction.length := by
  unfold ofParts
  split
  · next h => simp [h, value_of_digits hwhole]
  · exact value_of_fraction hwhole hfraction

theorem filter_isDigit_ofParts :
    (ofParts whole fraction).filter (·.isDigit) = whole ++ fraction := by
  unfold ofParts
  rw [List.filter_append, List.filter_eq_self.mpr hwhole]
  split
  · next h => rw [h, List.filter_nil]
  · rw [List.filter_cons_of_neg (by simp), List.filter_eq_self.mpr hfraction]

/-- Numbers below `10 ^ k` have at most `k` significant digits. -/
theorem length_significant_le {k : Nat} (hne : whole ≠ []) (hpower : Power power exponent)
    (h : Bytes.ofDecimal (whole ++ fraction) < 10 ^ k) :
    (significant (ofParts whole fraction ++ power)).length ≤ k := by
  rw [significant, takeWhile_append_power (spells_ofParts hwhole hfraction hne) hpower,
    filter_isDigit_ofParts hwhole hfraction]
  exact Bytes.length_dropWhile_zero_le (List.forall_mem_append.mpr ⟨hwhole, hfraction⟩) h

end Parts

end Numeral

/-! ## The texts of a decimal -/

namespace Decimal

variable {d : Decimal} {k : Nat}

theorem positional_eq (h : d.exponent < 0) : d.positional =
    Numeral.ofParts (Bytes.decimal (d.significand / d.denominator))
      (padded (-d.exponent).toNat (d.significand % d.denominator)) := by
  rw [positional, if_neg (by omega), Numeral.ofParts, if_neg (padded_ne_nil _ _)]

/-- The digits in their places are those of the significand. -/
theorem ofDecimal_positional (h : d.exponent < 0) :
    (padded (-d.exponent).toNat (d.significand % d.denominator)).length = (-d.exponent).toNat ∧
      Bytes.ofDecimal (Bytes.decimal (d.significand / d.denominator) ++
        padded (-d.exponent).toNat (d.significand % d.denominator)) = d.significand := by
  have hlength : (padded (-d.exponent).toNat (d.significand % d.denominator)).length =
      (-d.exponent).toNat :=
    length_padded (by omega) (Nat.mod_lt _ d.denominator_pos)
  refine ⟨hlength, ?_⟩
  rw [Bytes.ofDecimal_append, hlength, Bytes.ofDecimal_decimal, ofDecimal_padded]
  exact Nat.div_add_mod' _ _

theorem denotes_positional (h : d.exponent < 0) : Numeral.Denotes d.positional d.value := by
  obtain ⟨hlength, hdigits⟩ := ofDecimal_positional h
  have hwhole := Bytes.isDigit_of_mem_decimal (d.significand / d.denominator)
  have hfraction := isDigit_of_mem_padded (-d.exponent).toNat (d.significand % d.denominator)
  have hvalue : Numeral.value d.positional = d.value := by
    rw [positional_eq h, Numeral.value_ofParts hwhole hfraction, hdigits, hlength, value,
      div_eq_mul_inv, ← zpow_natCast, ← zpow_neg]
    congr 2
    omega
  rw [← hvalue, positional_eq h]
  exact .of_spells (Numeral.spells_ofParts hwhole hfraction (Bytes.decimal_ne_nil _))

theorem length_significant_positional (h : d.exponent < 0) (hk : d.significand < 10 ^ k) :
    (Numeral.significant d.positional).length ≤ k := by
  rw [← (ofDecimal_positional h).2] at hk
  rw [positional_eq h, ← List.append_nil (Numeral.ofParts _ _)]
  exact Numeral.length_significant_le (Bytes.isDigit_of_mem_decimal _) (isDigit_of_mem_padded _ _)
    (Bytes.decimal_ne_nil _) .none hk

/-- The text for a power of ten in scientific notation. -/
def powerText (exponent : ℤ) : Bytes :=
  ascii "e" ++ (if exponent < 0 then ascii "-" else ascii "+") ++ padded 2 exponent.natAbs

theorem power_powerText (exponent : ℤ) : Numeral.Power (powerText exponent) exponent := by
  have hne := padded_ne_nil 2 exponent.natAbs
  have hdigits := isDigit_of_mem_padded 2 exponent.natAbs
  unfold powerText
  split
  · have hpower := Numeral.Power.minus hne hdigits
    rwa [ofDecimal_padded, show -(exponent.natAbs : ℤ) = exponent by omega] at hpower
  · have hpower := Numeral.Power.plus hne hdigits
    rwa [ofDecimal_padded, show (exponent.natAbs : ℤ) = exponent by omega] at hpower

theorem scientific_eq (d : Decimal) : d.scientific =
    Numeral.ofParts ((Bytes.decimal d.significand).take 1) ((Bytes.decimal d.significand).drop 1) ++
      powerText (d.exponent + ((Bytes.decimal d.significand).drop 1).length) := by
  simp only [scientific, Numeral.ofParts, powerText, List.append_assoc]

section Scientific

variable (d)

theorem isDigit_of_mem_take : ∀ c ∈ (Bytes.decimal d.significand).take 1, c.isDigit :=
  fun c hc => Bytes.isDigit_of_mem_decimal _ c (List.mem_of_mem_take hc)

theorem isDigit_of_mem_drop : ∀ c ∈ (Bytes.decimal d.significand).drop 1, c.isDigit :=
  fun c hc => Bytes.isDigit_of_mem_decimal _ c (List.mem_of_mem_drop hc)

theorem take_ne_nil : (Bytes.decimal d.significand).take 1 ≠ [] := by
  simp [Bytes.decimal_ne_nil]

theorem denotes_scientific : Numeral.Denotes d.scientific d.value := by
  have hnumeral :=
    Numeral.spells_ofParts d.isDigit_of_mem_take d.isDigit_of_mem_drop d.take_ne_nil
  have hdenotes := Numeral.Denotes.intro hnumeral (power_powerText
    (d.exponent + ((Bytes.decimal d.significand).drop 1).length))
  rw [Numeral.value_ofParts d.isDigit_of_mem_take d.isDigit_of_mem_drop, List.take_append_drop,
    Bytes.ofDecimal_decimal, zpow_add₀ (by norm_num), zpow_natCast] at hdenotes
  rw [scientific_eq]
  convert hdenotes using 1
  rw [value]
  field_simp

variable {d}

theorem length_significant_scientific (hk : d.significand < 10 ^ k) :
    (Numeral.significant d.scientific).length ≤ k := by
  rw [scientific_eq]
  refine Numeral.length_significant_le d.isDigit_of_mem_take d.isDigit_of_mem_drop d.take_ne_nil
    (power_powerText _) ?_
  rwa [List.take_append_drop, Bytes.ofDecimal_decimal]

end Scientific

end Decimal

end LoxLex
