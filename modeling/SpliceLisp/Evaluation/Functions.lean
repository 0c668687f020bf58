/-
# Applying a function

A function is applied by its text. The body is written out, each parameter in
turn gives way to the text of its argument wherever its letters occur, and what
results is read and evaluated. So a parameter is also replaced inside a longer
symbol, inside a string, and inside an argument that an earlier parameter
brought in; where none of that happens, the result is the body with its leaves
replaced.

Key definitions: `substitute`, `applyFunction`.
-/
import SpliceLisp.Evaluation.Basic
import SpliceLisp.Reader

namespace SpliceLisp

open Eval

/-- The text of a body in which each parameter, in order, has given way to its
argument. Parameters or arguments in excess play no part. -/
def substitute (body : Expr) (params args : List Expr) : Text :=
  (params.zip args).foldl (fun text p => Text.replaceAll p.1.render p.2.render text) body.render

/-- The items of a list, and none of anything else. -/
def Expr.itemsOrNone : Expr → List Expr
  | .list items => items
  | _ => []

/-- The items of a list, and anything else as the only item. -/
def Expr.spread : Expr → List Expr
  | .list items => items
  | e => [e]

/-- Applies a list in the place of a function to argument values. It has to
consist of `lambda`, parameters and a body. A body that is no list, or an empty
one, gives the empty value for any arguments. -/
def applyFunction (ev : Expr → Eval Expr) (items args : List Expr) : Eval Expr :=
  match items with
  | [head, params, body] =>
    if !head.isLambda then fail .notLambda
    else match body with
      | .list (_ :: _) =>
        if args.length ≠ params.itemsOrNone.length then
          fail (.parameterCount params.itemsOrNone.length args.length)
        else do
          let source := substitute body params.itemsOrNone args
          note fun _ => .applied (.list items) source
          ev (← ofExcept (Expr.read source))
      | _ => pure .nil
  | _ => fail .notThreeParts

/-- Applies a list to the values that one argument expression supplies. -/
def applyTo (ev : Expr → Eval Expr) (items : List Expr) (argument : Expr) : Eval Expr := do
  applyFunction ev items (← ev argument).spread

end SpliceLisp
