/-
# Lexemes

A text is cut into lexemes by one pass over its characters. Between two
characters the pass is either between lexemes or inside one, whose text so far
it keeps. A parenthesis or the mark `'` is a lexeme at once, and a string ends
with its second double quote. A number, a symbol or an operator sign ends where
a blank, a parenthesis or the end of the text follows, and nothing else may
follow it. A `-` begins a number if a digit follows.

The pass stops at the first character that cannot stand where it does. A string
that never ends is the one failure that only the end of the text shows.

Key definitions: `Lexeme`, `Lexeme.State.step`, `Lexeme.scan`.
-/
import SpliceLisp.Text.Alphanumeric
import SpliceLisp.Text.Blank
import SpliceLisp.Fault

namespace SpliceLisp

/-- The classes of lexemes: the parentheses, the mark that defers what comes after it,
strings, numbers, names, and operators of one character. -/
inductive Lexeme.Kind where
  | opening
  | closing
  | quote
  | string
  | number
  | symbol
  | special
deriving DecidableEq, Repr

/-- A lexeme of a source text, with the column of its first character. -/
structure Lexeme where
  kind : Lexeme.Kind
  text : Text
  column : Nat
deriving DecidableEq, Repr

/-- The lexemes of a text as far as it can be cut, and why not further. -/
structure Scan where
  lexemes : List Lexeme
  fault : Option Fault
deriving DecidableEq, Repr

namespace Lexeme

/-! ### Classes of characters -/

/-- Whether the character may follow a number, a symbol or an operator. -/
def isDelimiter (c : Char) : Bool := Text.isBlank c || c = '(' || c = ')'

def beginsSymbol (c : Char) : Bool := Text.isLetter c || c = '#'

def continuesSymbol (c : Char) : Bool := Text.isAlphanumeric c || c = '-' || c = '#'

def operators : Text := "+-*/%<>"

/-! ### The pass over the characters -/

/-- Where the pass stands between two characters. Inside a lexeme it knows the column at
which that began and its characters so far, the last one first. In a number it has not
met the point yet, or it has. -/
inductive State where
  | between
  | sign (start : Nat) (char : Char)
  | integer (start : Nat) (seen : Text)
  | fraction (start : Nat) (seen : Text)
  | symbol (start : Nat) (seen : Text)
  | string (start : Nat) (seen : Text)
deriving DecidableEq, Repr

namespace State

/-- The lexeme that is complete if no further character belongs to it. -/
def pending : State → List Lexeme
  | between => []
  | sign start c => [⟨.special, [c], start⟩]
  | integer start seen => [⟨.number, seen.reverse, start⟩]
  | fraction start seen => [⟨.number, seen.reverse, start⟩]
  | symbol start seen => [⟨.symbol, seen.reverse, start⟩]
  | string _ _ => []

/-- Begins at a character between lexemes: the lexemes that it completes and
the state after it, or nothing if no lexeme begins so. -/
def begin (column : Nat) (c : Char) : Option (List Lexeme × State) :=
  if Text.isBlank c then some ([], between)
  else if c = '(' then some ([⟨.opening, [c], column⟩], between)
  else if c = ')' then some ([⟨.closing, [c], column⟩], between)
  else if c = '\'' then some ([⟨.quote, [c], column⟩], between)
  else if c = '"' then some ([], string column [c])
  else if Text.isDigit c then some ([], integer column [c])
  else if beginsSymbol c then some ([], symbol column [c])
  else if c ∈ operators then some ([], sign column c)
  else none

/-- Ends the lexeme that is under way at a delimiter, and goes on with that. -/
def leave (s : State) (column : Nat) (c : Char) : Option (List Lexeme × State) :=
  if isDelimiter c then
    (begin column c).map fun next => (s.pending ++ next.1, next.2)
  else none

/-- Takes one character: the lexemes that it completes and the state after it,
or nothing if it cannot stand here. -/
def step (s : State) (column : Nat) (c : Char) : Option (List Lexeme × State) :=
  match s with
  | between => begin column c
  | sign start d =>
    if d = '-' ∧ Text.isDigit c then some ([], integer start [c, d]) else s.leave column c
  | integer start seen =>
    if Text.isDigit c then some ([], integer start (c :: seen))
    else if c = '.' then some ([], fraction start (c :: seen))
    else s.leave column c
  | fraction start seen =>
    if Text.isDigit c then some ([], fraction start (c :: seen)) else s.leave column c
  | symbol start seen =>
    if continuesSymbol c then some ([], symbol start (c :: seen)) else s.leave column c
  | string start seen =>
    if c = '"' then some ([⟨.string, (c :: seen).reverse, start⟩], between)
    else some ([], string start (c :: seen))

/-- What is missing at the end of the text. -/
def endFault : State → Option Fault
  | string _ _ => some .unterminatedString
  | _ => none

end State

/-- Cuts the text that begins at the column, from the given state on. -/
def scanFrom (s : State) (column : Nat) : Text → Scan
  | [] => ⟨s.pending, s.endFault⟩
  | c :: cs =>
    match s.step column c with
    | none => ⟨[], some (.unexpectedChar c column)⟩
    | some (out, next) =>
      let rest := scanFrom next (column + 1) cs
      ⟨out ++ rest.lexemes, rest.fault⟩

/-- Cuts a text into lexemes. -/
def scan (source : Text) : Scan := scanFrom .between 0 source

end Lexeme

end SpliceLisp
