/-
# Rounding to the nearest double

A positive quotient of natural numbers, in units, goes to the nearest double;
halfway between two, to the one whose rank is even. A quotient of at least
`2 ^ 53` units is first scaled down by the power of two that leaves 53 binary
digits before the point.

Key definitions: `Binary64.roundDiv`, `Binary64.nearestRank`,
`Binary64.round`, `Binary64.ofDecimal`, `Binary64.ofNumeral`.
-/
import SpliceLisp.Binary64.Basic
import SpliceLisp.Text.Numeral

namespace SpliceLisp

namespace Binary64

/-- The whole number nearest to `num / den`; halfway, the even one. -/
def roundDiv (num den : Nat) : Nat :=
  let twice := 2 * (num % den)
  if twice < den ∨ (twice = den ∧ num / den % 2 = 0) then num / den else num / den + 1

/-- The rank of the double nearest to `num / den` units. A result from
`rankBound` on says that infinity is nearest. -/
def nearestRank (num den : Nat) : Nat :=
  let shift := (num / den).log2 - 52
  shift * twoTo 52 + roundDiv num (den * twoTo shift)

/-- The double nearest to `num / den` units, with a sign. -/
def round (negative : Bool) (num den : Nat) : Binary64 := ofRank negative (nearestRank num den)

/-- The double nearest to `mantissa * 10 ^ exponent`. A number of more than 310
digits before the point is beyond the largest double, and one that begins after
the 330th place rounds to zero, so no larger power of ten is computed. -/
def ofDecimal (negative : Bool) (mantissa : Nat) (exponent : Int) : Binary64 :=
  let size := (Nat.toDigits 10 mantissa).length + exponent
  if mantissa = 0 ∨ size < -330 then ofRank negative 0
  else if 310 < size then infinite negative
  else if 0 ≤ exponent then round negative (mantissa * tenTo exponent.toNat * unitsPerOne) 1
  else round negative (mantissa * unitsPerOne) (tenTo (-exponent).toNat)

/-- The double nearest to what a numeral says. -/
def ofNumeral : Numeral → Binary64
  | .decimal negative mantissa exponent => ofDecimal negative mantissa exponent
  | .infinite negative => infinite negative
  | .nan => nan

end Binary64

end SpliceLisp
