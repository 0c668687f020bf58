/-
# Reading expressions

The reader takes lexemes one at a time and keeps what is unfinished: the lists
that are open, each with its items so far, and the marks that wait for the
expression they defer. A complete expression is given to whatever is innermost:
a mark turns it into its text and passes that on, a list takes it as an item,
and with nothing unfinished it is read.

A closing parenthesis ends the innermost open list. Where the innermost
unfinished thing is no list there is nothing to close, and it is ignored.

`Expr.readAll` gives every expression of a text up to a failure. `Expr.read`
stops at the first expression and looks no further, so whatever is wrong after
it does not matter. A failure of the lexemes shows only where they run out.

Key definitions: `Reader.step`, `Expr.read`, `Expr.readAll`.
-/
import SpliceLisp.Expr.Render
import SpliceLisp.Lexeme

namespace SpliceLisp

/-- The expressions of a text up to its end or a failure. -/
structure Reading where
  exprs : List Expr
  fault : Option Fault

namespace Reader

/-- Something unfinished: an open list, with its items so far, the last one first, or a
mark whose expression is still to come. -/
inductive Frame where
  | list (items : List Expr)
  | quote

/-- Gives a complete expression to the innermost unfinished thing. What is
returned is unfinished afterwards, and the expression that is read now, if
any. -/
def deliver (e : Expr) : List Frame → List Frame × Option Expr
  | [] => ([], some e)
  | .quote :: frames => deliver (.quote e.render) frames
  | .list items :: frames => (.list (e :: items) :: frames, none)

/-- Takes one lexeme. -/
def step (frames : List Frame) (l : Lexeme) : List Frame × Option Expr :=
  match l.kind with
  | .opening => (.list [] :: frames, none)
  | .closing =>
    match frames with
    | .list items :: outer => deliver (.list items.reverse) outer
    | .quote :: outer => (.quote :: outer, none)
    | [] => ([], none)
  | .quote => (.quote :: frames, none)
  | .number => deliver (.num l.text) frames
  | .string => deliver (.str l.text) frames
  | .symbol => deliver (.sym l.text) frames
  | .special => deliver (.sym l.text) frames

/-- What is missing when the lexemes run out with something unfinished. -/
def missing : List Frame → Option Fault
  | [] => none
  | .list _ :: _ => some .unclosedList
  | .quote :: _ => some .missingExpression

/-- Reads every expression of the lexemes. -/
def readFrom (frames : List Frame) : List Lexeme → Reading
  | [] => ⟨[], missing frames⟩
  | l :: ls =>
    let (next, done) := step frames l
    let rest := readFrom next ls
    ⟨done.toList ++ rest.exprs, rest.fault⟩

/-- Reads the first expression of the lexemes: that and the lexemes after it,
or what is missing. -/
def firstFrom (frames : List Frame) : List Lexeme → Except Fault (Expr × List Lexeme)
  | [] => .error ((missing frames).getD .missingExpression)
  | l :: ls =>
    match step frames l with
    | (_, some e) => .ok (e, ls)
    | (next, none) => firstFrom next ls

end Reader

namespace Expr

/-- Reads every expression of a text. -/
def readAll (source : Text) : Reading :=
  let scan := Lexeme.scan source
  let reading := Reader.readFrom [] scan.lexemes
  ⟨reading.exprs, scan.fault <|> reading.fault⟩

/-- Reads the first expression of a text. -/
def read (source : Text) : Except Fault Expr :=
  let scan := Lexeme.scan source
  match Reader.firstFrom [] scan.lexemes with
  | .ok (e, _) => .ok e
  | .error f => .error (scan.fault.getD f)

end Expr

end SpliceLisp
