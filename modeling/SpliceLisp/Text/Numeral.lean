/-
# Numerals

Two readings of a text as a number. Both leave out the blanks at the ends,
take a decimal digit of any script for its value, and allow a single `_`
between two digits.

* An integer is an optional sign and at least one digit, and at most 4300.
* A decimal is an optional sign, digits with at most one point among or beside
  them, and optionally `e` with a signed power of ten; or, in any case of the
  letters, `inf`, `infinity` or `nan`.

Key definitions: `Text.integer?`, `Numeral`, `Numeral.ofText?`.
-/
import SpliceLisp.Text.DecimalDigit
import SpliceLisp.Text.Blank
import SpliceLisp.Text.Decimal

namespace SpliceLisp

namespace Text

/-- The character as a numeral takes it: beyond ASCII, a decimal digit is the
ASCII digit of its value and a blank is a space. -/
def plainChar (c : Char) : Char :=
  if c.toNat < 128 then c
  else match digitValue? c with
    | some v => Nat.digitChar v
    | none => if isBlank c then ' ' else c

/-- Whether the text begins with an ASCII digit. -/
def beginsWithDigit : Text → Bool
  | [] => false
  | c :: _ => c.isDigit

/-- The text without each `_` that stands between two digits, and `none` if
one stands elsewhere. The first argument says whether a digit comes before. -/
def ungroup : Bool → Text → Option Text
  | _, [] => some []
  | afterDigit, c :: cs =>
    if c = '_' then if afterDigit && beginsWithDigit cs then ungroup false cs else none
    else (ungroup c.isDigit cs).map (c :: ·)

/-- The numeral in plain digits, without blanks at its ends and without `_`. -/
def plainNumeral? (t : Text) : Option Text :=
  ungroup false (trim isAsciiBlank (t.map plainChar))

/-- Whether a minus comes first, and the text after the sign. -/
def takeSign : Text → Bool × Text
  | [] => (false, [])
  | c :: cs => if c = '-' then (true, cs) else if c = '+' then (false, cs) else (false, c :: cs)

/-- The number that a row of ASCII digits writes. -/
def digitsValue (t : Text) : Nat := t.foldl (fun n c => 10 * n + (c.toNat - 48)) 0

/-- The number that a non-empty row of ASCII digits writes. -/
def digits? (t : Text) : Option Nat :=
  if !t.isEmpty && t.all Char.isDigit then some (digitsValue t) else none

/-- The most digits an integer may have. -/
def maxIntegerDigits : Nat := 4300

/-- The integer that the text writes. -/
def integer? (t : Text) : Option Int := do
  let (negative, ds) := takeSign (← plainNumeral? t)
  if ds.length ≤ maxIntegerDigits then (digits? ds).map (signedInt negative) else none

end Text

/-- What a text says as a decimal number: `mantissa * 10 ^ exponent` or its negative, an
infinity, or no number. -/
inductive Numeral where
  | decimal (negative : Bool) (mantissa : Nat) (exponent : Int)
  | infinite (negative : Bool)
  | nan
deriving DecidableEq, Repr

namespace Numeral

open Text

/-- The power of ten after the digits: nothing, or `e` and a signed integer. -/
def exponent? : Text → Option Int
  | [] => some 0
  | c :: cs =>
    if c = 'e' ∨ c = 'E' then
      let (negative, ds) := takeSign cs
      (digits? ds).map (signedInt negative)
    else none

/-- The digits before and after the point, and what follows them. -/
def splitDigits (t : Text) : Text × Text × Text :=
  let whole := t.takeWhile Char.isDigit
  match t.dropWhile Char.isDigit with
  | [] => (whole, [], [])
  | c :: cs =>
    if c = '.' then (whole, cs.takeWhile Char.isDigit, cs.dropWhile Char.isDigit)
    else (whole, [], c :: cs)

/-- The number that plain text without a sign writes. -/
def unsigned? (negative : Bool) (t : Text) : Option Numeral :=
  let lower := t.map Char.toLower
  if lower = "inf" ∨ lower = "infinity" then some (.infinite negative)
  else if lower = "nan" then some .nan
  else
    let (whole, fraction, rest) := splitDigits t
    if whole.isEmpty && fraction.isEmpty then none
    else (exponent? rest).map fun e =>
      .decimal negative (digitsValue (whole ++ fraction)) (e - fraction.length)

/-- The number that the text writes. -/
def ofText? (t : Text) : Option Numeral := do
  let (negative, rest) := takeSign (← plainNumeral? t)
  unsigned? negative rest

example : ofText? [' ', '-', '1', '_', '0', '.', '5'] = some (.decimal true 105 (-1)) := by decide

example : ofText? ['1', '_', '.', '5'] = none := by decide

end Numeral

end SpliceLisp
