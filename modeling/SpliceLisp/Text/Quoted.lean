/-
# Quoted text

The quoted form of a text, for messages. It stands between single quotes,
unless it holds a single quote and no double quote. The active quote and the
backslash get a backslash before them; newline, carriage return and tab are
`\n`, `\r` and `\t`; any other character that is not printable is its code
point in lower-case hexadecimal, as `\x` with two digits, `\u` with four or
`\U` with eight.

Key definitions: `Text.quoted`, `Text.escapeChar`.
-/
import SpliceLisp.Text.Decimal
import SpliceLisp.Text.Printable

namespace SpliceLisp

namespace Text

/-- The quote that a text stands between. -/
def quoteMark (t : Text) : Char := if '\'' ∈ t ∧ '"' ∉ t then '"' else '\''

/-- How a character is written between two quotes `q`. -/
def escapeChar (q c : Char) : Text :=
  if c = q ∨ c = '\\' then ['\\', c]
  else if c = '\n' then ['\\', 'n']
  else if c = '\r' then ['\\', 'r']
  else if c = '\t' then ['\\', 't']
  else if isPrintable c then [c]
  else if c.toNat < 0x100 then '\\' :: 'x' :: lastDigits 16 2 c.toNat
  else if c.toNat < 0x10000 then '\\' :: 'u' :: lastDigits 16 4 c.toNat
  else '\\' :: 'U' :: lastDigits 16 8 c.toNat

def quoted (t : Text) : Text :=
  let q := quoteMark t
  q :: t.flatMap (escapeChar q) ++ [q]

example : quoted ['a', '\'', '\n'] = ['"', 'a', '\'', '\\', 'n', '"'] := by decide

end Text

end SpliceLisp
