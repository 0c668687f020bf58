/-
# The text of an expression

`Expr.render` writes an expression as source text: a number, string, symbol or
deferred text stands for itself, a list is its items between parentheses with
one space between two neighbours, and a procedure shows as `Fn<()>`, which no
reader accepts. `Expr.inspect` shows the structure, with the variant before
each part.

Key definitions: `Expr.render`, `Expr.inspect`.
-/
import SpliceLisp.Expr.Basic
import SpliceLisp.Text.Quoted

namespace SpliceLisp

namespace Expr

mutual

/-- The source text of an expression. -/
def render : Expr → Text
  | num t => t
  | str t => t
  | sym n => n
  | quote t => t
  | list [] => "()"
  | list (e :: es) => '(' :: render e ++ renderRest es
  | func _ => "Fn<()>"

/-- The source text of the items that follow the first, and of the end of
their list. -/
def renderRest : List Expr → Text
  | [] => ")"
  | e :: es => ' ' :: render e ++ renderRest es

end

mutual

/-- The structure of an expression, as text. -/
def inspect : Expr → Text
  | num t => "Num(" ++ Text.quoted t ++ ")"
  | str t => "Str(" ++ Text.quoted t ++ ")"
  | sym n => "Sym(" ++ Text.quoted n ++ ")"
  | quote t => "Quote(" ++ Text.quoted t ++ ")"
  | list [] => "List([])"
  | list (e :: es) => "List([" ++ inspect e ++ inspectRest es
  | func p => "Func(" ++ Text.quoted p.name ++ ")"

/-- The structure of the items that follow the first, and the end of their
list. -/
def inspectRest : List Expr → Text
  | [] => "])"
  | e :: es => ", " ++ inspect e ++ inspectRest es

end

example : render (list [sym "+", num "1", list []]) = ("(+ 1 ())" : Text) := by decide

end Expr

end SpliceLisp
