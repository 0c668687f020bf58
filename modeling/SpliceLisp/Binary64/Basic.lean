/-
# Double-precision numbers

The finite doubles of one sign are ranked by size from zero, without a gap:
the rank is what the low 63 bits of the encoding say. A finite double is a
whole number of *units*, the least positive double `2 ^ (-1074)`, so values are
added, multiplied and compared as integers and nothing here is approximate.

Key definitions: `Binary64`, `Binary64.units`, `Binary64.value?`,
`Binary64.ofBits`, `Binary64.toBits?`.
-/
import SpliceLisp.Text.Decimal

namespace SpliceLisp

abbrev twoTo (n : Nat) : Nat := Nat.pow 2 n

abbrev tenTo (n : Nat) : Nat := Nat.pow 10 n

/-- The number of finite doubles of one sign: the rank that infinity has. -/
def rankBound : Nat := 2047 * twoTo 52

/-- The number of units in one. -/
def unitsPerOne : Nat := twoTo 1074

/-- A double-precision number. A finite one has a sign and a rank. -/
inductive Binary64 where
  | finite (negative : Bool) (rank : Fin rankBound)
  | infinite (negative : Bool)
  | nan
deriving DecidableEq, Repr

namespace Binary64

/-- The size, in units, of the number of rank `r`. The ranks below `2 ^ 52`
count the units themselves; after that each further `2 ^ 52` ranks are spaced
twice as wide as those before. -/
def units (r : Nat) : Nat :=
  if r < twoTo 52 then r else (twoTo 52 + r % twoTo 52) * twoTo (r / twoTo 52 - 1)

/-- The value in units. Infinity counts as the size that follows the largest
finite one. -/
def value? : Binary64 → Option Int
  | finite s r => some (signedInt s (units r))
  | infinite s => some (signedInt s (units rankBound))
  | nan => none

def isFinite : Binary64 → Bool
  | finite _ _ => true
  | infinite _ => false
  | nan => false

/-- Whether the number is zero, of either sign. -/
def isZero : Binary64 → Bool
  | finite _ r => r.val = 0
  | infinite _ => false
  | nan => false

/-- The finite number of the given rank, or infinity from `rankBound` on. -/
def ofRank (negative : Bool) (r : Nat) : Binary64 :=
  if h : r < rankBound then finite negative ⟨r, h⟩ else infinite negative

def zero : Binary64 := ofRank false 0

/-- The number that the 64 bits of `n` encode. -/
def ofBits (n : Nat) : Binary64 :=
  if n % twoTo 63 ≤ rankBound then ofRank (n / twoTo 63 % 2 = 1) (n % twoTo 63) else nan

/-- The encoding of a number; `none` for `nan`, which has many. -/
def toBits? : Binary64 → Option Nat
  | finite s r => some ((if s then twoTo 63 else 0) + r)
  | infinite s => some ((if s then twoTo 63 else 0) + rankBound)
  | nan => none

/-- Whether `a` is below `b`; never so for `nan`. -/
def less (a b : Binary64) : Bool :=
  match a.value?, b.value? with
  | some x, some y => decide (x < y)
  | _, _ => false

@[simp] theorem isFinite_finite (s : Bool) (r : Fin rankBound) : (finite s r).isFinite = true := rfl

@[simp] theorem ofRank_val (s : Bool) (r : Fin rankBound) : ofRank s r = finite s r := by
  simp [ofRank]

end Binary64

end SpliceLisp
