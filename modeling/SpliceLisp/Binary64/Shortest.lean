/-
# Doubles in positional notation

A whole number is written out in full. Any other finite double is written with
the fewest decimal places that read back as it; of two such decimals the nearer
one, and halfway between them the one with the even last digit. There is never
an exponent, and no point at the end. Zero has no sign.

Only the two neighbours of the number on the grid of a count of places can be
nearest to it, and with 1074 places the number itself is on the grid, so the
search ends there at the latest.

Key definitions: `Binary64.text?`, `Binary64.fewestPlaces`.
-/
import SpliceLisp.Binary64.Rounding

namespace SpliceLisp

namespace Binary64

/-- Whether `n / 10 ^ places` reads as the number of rank `r`. -/
def readsAs (r n places : Nat) : Bool := nearestRank (n * unitsPerOne) (tenTo places) = r

/-- Of the neighbours of the number of rank `r` on the grid of `places` decimal
places, the nearer one that reads as the number, counted in grid steps. -/
def onGrid? (r places : Nat) : Option Nat :=
  let scaled := units r * tenTo places
  let low := scaled / unitsPerOne
  let twice := 2 * (scaled % unitsPerOne)
  let lowIsNearer := twice < unitsPerOne ∨ (twice = unitsPerOne ∧ low % 2 = 0)
  if readsAs r low places && (lowIsNearer || !readsAs r (low + 1) places) then some low
  else if readsAs r (low + 1) places then some (low + 1)
  else none

/-- The first grid from `places` on with a neighbour that reads as the number
of rank `r`, looked for on `more` further grids, and that neighbour. -/
def fewestFrom (r : Nat) : Nat → Nat → Nat × Nat
  | 0, places => (places, units r * tenTo places / unitsPerOne)
  | more + 1, places =>
    ((onGrid? r places).map fun n => (places, n)).getD (fewestFrom r more (places + 1))

/-- The least count of places, at least one, at which the number of rank `r`
can be written, and its digits there. -/
def fewestPlaces (r : Nat) : Nat × Nat := fewestFrom r 1073 1

/-- The text of `n / 10 ^ places`. -/
def positional (places n : Nat) : Text :=
  Text.decimal (n / tenTo places) ++ '.' :: Text.lastDigits 10 places n

/-- The text of the finite number of this sign and rank. -/
def finiteText (negative : Bool) (r : Nat) : Text :=
  if units r % unitsPerOne = 0 then Text.decimalInt (signedInt negative (units r / unitsPerOne))
  else (if negative then ['-'] else []) ++ positional (fewestPlaces r).1 (fewestPlaces r).2

/-- The text of a finite number. -/
def text? : Binary64 → Option Text
  | finite s r => some (finiteText s r)
  | infinite _ => none
  | nan => none

/-- Exactly the finite numbers have a text. -/
theorem isSome_text? (x : Binary64) : x.text?.isSome = x.isFinite := by
  cases x <;> rfl

end Binary64

end SpliceLisp
