import LoxLex.Number.Decimal

/-!
# Shortest decimals

The decimal with the fewest digits that reads back as a given binary number, and of
those the one nearest to it. On each grid of decimals only the two neighbours of the
number have to be tried: if any decimal of the grid reads back, one of them does.

## Main definitions

* `Binary64.shortest` — the shortest decimal of a magnitude.
* `Binary64.format` — the text of a number.
-/

namespace LoxLex

namespace Decimal

/-- The two multiples of `10 ^ exponent` around a magnitude in units of `2 ^ -1074`, the
nearer one first. If both are equally near, the even one is first. -/
def neighbours (units : Nat) (exponent : Int) : List Decimal :=
  let num := units * Nat.pow 10 (-exponent).toNat
  let den := Binary64.unitsInOne * Nat.pow 10 exponent.toNat
  let near := roundHalfEven num den
  let far := if near = num / den then near + 1 else num / den
  [⟨near, exponent⟩, ⟨far, exponent⟩]

/-- A magnitude in units of `2 ^ -1074`, written out. -/
def ofUnits (units : Nat) : Decimal := ⟨units * Nat.pow 5 1074, -1074⟩

end Decimal

namespace Binary64

/-- The least `k` such that a magnitude in units of `2 ^ -1074` is below `10 ^ k`. No such
magnitude but zero is below `10 ^ -324`. -/
def decimalExponent (units : Nat) : Int :=
  (Bytes.decimal (units * Nat.pow 10 324 / unitsInOne)).length - 324

/-- The decimals worth trying for a magnitude, those with fewer digits first. Seventeen
digits tell all numbers apart. -/
def candidates (units : Nat) : List Decimal :=
  let top := decimalExponent units
  (List.range' 1 17).flatMap fun (count : Nat) => Decimal.neighbours units (top - count)

/-- The shortest decimal that reads back as the magnitude of the given rank. -/
def shortest (rank : Nat) : Decimal :=
  (((candidates (units rank)).find? (·.nearestRank == rank)).getD
    (Decimal.ofUnits (units rank))).strip

/-! ## Text -/

/-- The text of a finite magnitude other than zero: positional unless scientific is shorter.
A whole number is positional with all its digits, also those that reading it back does not
need. -/
def formatMagnitude (rank : Nat) : Bytes :=
  let d := shortest rank
  if d.scientific.length < d.positional.length then d.scientific
  else if 0 ≤ d.exponent then Bytes.decimal (units rank / unitsInOne)
  else d.positional

def format (x : Binary64) : Bytes :=
  (if x.isNegative then ascii "-" else []) ++
    if x.isNaN then ascii "nan"
    else if x.isInfinite then ascii "inf"
    else if x.rank = 0 then ascii "0"
    else formatMagnitude x.rank

end Binary64

end LoxLex
