/-
# Arithmetic of doubles

Each operation is the exact result rounded to the nearest double. Division
and remainder are undefined for a zero divisor and for operands that are not
finite, and say so by `none`. The remainder has the sign of the dividend and
is exact.

Key definitions: `Binary64.add`, `Binary64.sub`, `Binary64.mul`,
`Binary64.div?`, `Binary64.rem?`, `Binary64.sum`.
-/
import SpliceLisp.Binary64.Rounding

namespace SpliceLisp

namespace Binary64

def neg : Binary64 → Binary64
  | finite s r => finite (!s) r
  | infinite s => infinite (!s)
  | nan => nan

/-- The double nearest to a whole number of units; `zeroSign` is the sign of
zero. -/
def ofUnits (zeroSign : Bool) (n : Int) : Binary64 :=
  if n = 0 then ofRank zeroSign 0 else round (decide (n < 0)) n.natAbs 1

/-- The sum. Infinities of different sign have none. -/
def add : Binary64 → Binary64 → Binary64
  | finite s a, finite t b => ofUnits (s && t) (signedInt s (units a) + signedInt t (units b))
  | infinite s, infinite t => if s = t then infinite s else nan
  | infinite s, finite _ _ => infinite s
  | finite _ _, infinite t => infinite t
  | nan, _ => nan
  | _, nan => nan

def sub (a b : Binary64) : Binary64 := a.add b.neg

/-- The product. Infinity times zero has none. -/
def mul : Binary64 → Binary64 → Binary64
  | finite s a, finite t b => round (s ^^ t) (units a * units b) unitsPerOne
  | infinite s, infinite t => infinite (s ^^ t)
  | infinite s, finite t b => if b.val = 0 then nan else infinite (s ^^ t)
  | finite s a, infinite t => if a.val = 0 then nan else infinite (s ^^ t)
  | nan, _ => nan
  | _, nan => nan

/-- The quotient of two finite numbers, the second not zero. -/
def div? : Binary64 → Binary64 → Option Binary64
  | finite s a, finite t b =>
    if b.val = 0 then none else some (round (s ^^ t) (units a * unitsPerOne) (units b))
  | _, _ => none

/-- What is left of the first number after taking away the second as often as
it goes, both finite and the second not zero. -/
def rem? : Binary64 → Binary64 → Option Binary64
  | finite s a, finite _ b =>
    if b.val = 0 then none else some (round s (units a % units b) 1)
  | _, _ => none

/-- The sum of the numbers from left to right, beginning with zero. Each addition is
rounded, and nothing makes up for what that loses. -/
def sum (xs : List Binary64) : Binary64 := xs.foldl add zero

theorem isSome_div? {s t : Bool} {a b : Fin rankBound} (h : b.val ≠ 0) :
    (div? (finite s a) (finite t b)).isSome = true := by
  simp [div?, h]

theorem isSome_rem? {s t : Bool} {a b : Fin rankBound} (h : b.val ≠ 0) :
    (rem? (finite s a) (finite t b)).isSome = true := by
  simp [rem?, h]

end Binary64

end SpliceLisp
