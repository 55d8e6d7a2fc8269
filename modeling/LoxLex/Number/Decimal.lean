import LoxLex.Number.Binary64

/-!
# Decimals

Numbers of the form `significand · 10 ^ exponent`, exact and without bound.

## Main definitions

* `Decimal.ofNumeral` — the value of a numeral such as `10.25`.
* `Decimal.toBinary64` — the number that a numeral stands for.
* `Decimal.positional`, `Decimal.scientific` — the two ways to write a decimal.
-/

namespace LoxLex

structure Decimal where
  significand : Nat
  exponent : Int
deriving DecidableEq, Repr

namespace Decimal

/-- The value of digits with at most one dot among them. -/
def ofNumeral (numeral : Bytes) : Decimal :=
  let whole := numeral.takeWhile (· ≠ Byte.dot)
  let fraction := (numeral.dropWhile (· ≠ Byte.dot)).drop 1
  ⟨Bytes.ofDecimal (whole ++ fraction), -fraction.length⟩

/-! ## Conversion -/

/-- With `denominator`, the value as a quotient of whole numbers. -/
def numerator (d : Decimal) : Nat := d.significand * Nat.pow 10 d.exponent.toNat

def denominator (d : Decimal) : Nat := Nat.pow 10 (-d.exponent).toNat

/-- The rank of the binary number nearest to the value. -/
def nearestRank (d : Decimal) : Nat := Binary64.nearestRank d.numerator d.denominator

def toBinary64 (d : Decimal) : Binary64 := Binary64.ofQuotient d.numerator d.denominator

/-- The same value with a significand that does not end in zero. -/
def strip (d : Decimal) : Decimal :=
  if d.significand ≠ 0 ∧ d.significand % 10 = 0 then
    strip ⟨d.significand / 10, d.exponent + 1⟩
  else d
termination_by d.significand
decreasing_by omega

/-! ## Text -/

/-- A numeral with zeros in front up to the given length. -/
def padded (length : Nat) (n : Nat) : Bytes := (Bytes.decimal n).leftpad length '0'.toUInt8

/-- All digits in their places: `0.25`, `1200`. -/
def positional (d : Decimal) : Bytes :=
  if 0 ≤ d.exponent then Bytes.decimal d.numerator
  else
    Bytes.decimal (d.significand / d.denominator) ++ Byte.dot ::
      padded (-d.exponent).toNat (d.significand % d.denominator)

/-- One digit before the dot and a power of ten behind, its exponent with a sign and two
digits at least: `2.5e-01`, `1e+05`. There is no dot where no digit would follow. -/
def scientific (d : Decimal) : Bytes :=
  let digits := Bytes.decimal d.significand
  let fraction := digits.drop 1
  let exponent := d.exponent + fraction.length
  digits.take 1 ++ (if fraction = [] then [] else Byte.dot :: fraction) ++ ascii "e" ++
    (if exponent < 0 then ascii "-" else ascii "+") ++ padded 2 exponent.natAbs

example : positional ⟨25, -2⟩ = ascii "0.25" := by decide +kernel
example : scientific ⟨25, -2⟩ = ascii "2.5e-01" := by decide +kernel

end Decimal

end LoxLex
