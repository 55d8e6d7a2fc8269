import LoxLex.Bytes

/-!
# Binary floating-point numbers

Numbers of 64 bits, held as bit patterns: a sign bit, 11 bits of exponent and 52 bits
of fraction. Without its sign a pattern is the rank of its magnitude, since greater
magnitudes have greater patterns. Every finite magnitude is a whole number of units of
`2 ^ -1074`, so rounding is done on natural numbers.

## Main definitions

* `Binary64.units` — the magnitude of a rank.
* `Binary64.nearestRank` — the rank whose magnitude is nearest to a quotient.
* `Binary64.ofQuotient` — the number that a numeral of a given value stands for.
-/

namespace LoxLex

structure Binary64 where
  bits : UInt64
deriving DecidableEq, Repr, Inhabited

/-- The whole number nearest to `num / den`; of two equally near ones, the even one. -/
def roundHalfEven (num den : Nat) : Nat :=
  let quotient := num / den
  match compare (2 * (num % den)) den with
  | .lt => quotient
  | .eq => quotient + quotient % 2
  | .gt => quotient + 1

namespace Binary64

/-- The value of the sign bit in a pattern. -/
def signBit : Nat := Nat.pow 2 63

/-- The number of ranks over which magnitudes keep their spacing. -/
def binade : Nat := Nat.pow 2 52

/-- The number of units in one. -/
def unitsInOne : Nat := Nat.pow 2 1074

def zero : Binary64 := ⟨0⟩

/-- The rank of infinity: finite magnitudes lie below it, and NaNs above. -/
def infinityRank : Nat := 0x7FF * binade

def infinity : Binary64 := ⟨infinityRank.toUInt64⟩

/-- The pattern without its sign. -/
def rank (x : Binary64) : Nat := x.bits.toNat % signBit

def isNegative (x : Binary64) : Bool := signBit ≤ x.bits.toNat

def isNaN (x : Binary64) : Bool := infinityRank < x.rank

def isInfinite (x : Binary64) : Bool := x.rank == infinityRank

/-- The magnitude of a rank in units of `2 ^ -1074`. Up to the second binade ranks are one unit
apart; from there on every binade doubles the spacing. -/
def units (rank : Nat) : Nat :=
  if rank < binade then rank else (binade + rank % binade) * Nat.pow 2 (rank / binade - 1)

/-! ## Rounding -/

/-- The rank whose magnitude is nearest to `num / den`, an even rank if two are equally
near. `shift` is the number of binary digits that do not fit into 53. A magnitude beyond the
finite ones has the rank of infinity or a higher one. -/
def nearestRank (num den : Nat) : Nat :=
  let scaled := num * unitsInOne
  let shift := (scaled / den).log2 - 52
  shift * binade + roundHalfEven scaled (den * Nat.pow 2 shift)

/-- The number that a numeral of value `num / den` stands for: the nearest one. A value
out of range stands for infinity, both where it is too great and where it is so close to
zero that zero would be nearest. -/
def ofQuotient (num den : Nat) : Binary64 :=
  let rank := nearestRank num den
  if num = 0 then zero
  else if rank = 0 ∨ infinityRank ≤ rank then infinity
  else ⟨rank.toUInt64⟩

example : nearestRank 1 10 = 0x3FB999999999999A := by decide +kernel
example : ofQuotient 1 (Nat.pow 10 400) = infinity := by decide +kernel

end Binary64

end LoxLex
