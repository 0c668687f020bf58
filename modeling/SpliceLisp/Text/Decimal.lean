/-
# Whole numbers as text

The decimal notation of natural numbers and integers, and rows of digits of a
fixed width in any base up to sixteen.

Key definitions: `signedInt`, `Text.decimal`, `Text.decimalInt`,
`Text.lastDigits`.
-/
import SpliceLisp.Text.Basic

namespace SpliceLisp

/-- An integer from its sign and its size. -/
def signedInt (negative : Bool) (n : Nat) : Int := if negative then -(n : Int) else n

namespace Text

/-- The decimal digits of a natural number. -/
def decimal (n : Nat) : Text := Nat.toDigits 10 n

/-- The decimal digits of an integer, after a minus if it is negative. -/
def decimalInt : Int → Text
  | .ofNat n => decimal n
  | .negSucc n => '-' :: decimal (n + 1)

/-- The last `width` digits of `n`, in lower case. -/
def lastDigits (base : Nat) : Nat → Nat → Text
  | 0, _ => []
  | width + 1, n => lastDigits base width (n / base) ++ [Nat.digitChar (n % base)]

theorem length_lastDigits (base width n : Nat) : (lastDigits base width n).length = width := by
  induction width generalizing n with
  | zero => rfl
  | succ width ih => simp [lastDigits, ih]

end Text

end SpliceLisp
