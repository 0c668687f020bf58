/-
# Blank characters

The characters that separate words and carry no mark: the controls from tab
to carriage return, the four separators before the space, and the spaces of
Unicode 14. `isAsciiBlank` is the narrower class that a numeral may have at its
ends.

Key definitions: `Text.isBlank`, `Text.isAsciiBlank`, `Text.strip`.
-/
import SpliceLisp.Text.Basic
import SpliceLisp.Text.Ranges

namespace SpliceLisp

namespace Text

def blankRanges : Ranges :=
  [(0x9, 0xD), (0x1C, 0x20), (0x85, 0x85), (0xA0, 0xA0), (0x1680, 0x1680), (0x2000, 0x200A),
   (0x2028, 0x2029), (0x202F, 0x202F), (0x205F, 0x205F), (0x3000, 0x3000)]

theorem increasing_blankRanges : blankRanges.increasing = true := by decide +kernel

def isBlank (c : Char) : Bool := blankRanges.covers c.toNat

/-- Whether the character is the space or one of the controls from tab to
carriage return. -/
def isAsciiBlank (c : Char) : Bool := c = ' ' || decide (9 ≤ c.toNat ∧ c.toNat ≤ 13)

def strip (t : Text) : Text := trim isBlank t

end Text

end SpliceLisp
