/-
# Evaluating expressions

A number or a string is its own value. A symbol has the value it is bound to; a
list that it is bound to is evaluated first. A deferred text is read and its
first expression evaluated.

The empty list is its own value. A list headed by a function applies that. A
list whose head has a procedure for its value calls that on the other items as
written. Of any other list every item is evaluated, and if the text of the
result then mentions `lambda` and differs from the text of the list, the result
is evaluated once more: that is how a symbol bound to a function is called.

Each value is kept for the turn under the text of its expression, and found
there before anything is evaluated. Evaluations are nested at most as deep as
the number given to `evaluate`; chains of calls inside one evaluation do not
count towards it.

Key definitions: `evaluateList`, `dispatch`, `evaluate`.
-/
import SpliceLisp.Evaluation.Forms

namespace SpliceLisp

open Eval

/-- The values of all expressions, from left to right. -/
def evaluateEach (ev : Expr → Eval Expr) : List Expr → Eval (List Expr)
  | [] => pure []
  | e :: es => do
    let v ← ev e
    let vs ← evaluateEach ev es
    return v :: vs

/-- Whether a list that was evaluated item by item has to be evaluated again:
it mentions `lambda` and is not what it was before. -/
def needsAnotherPass (before after : Text) : Bool :=
  Text.mentions Expr.lambdaName after && after != before

/-- The value of a list. -/
def evaluateList (ev : Expr → Eval Expr) : List Expr → Eval Expr
  | [] => pure (.list [])
  | head :: tail =>
    if head.isFunction then applyHead ev .head (head :: tail)
    else do
      match ← ev head with
      | .func p => p.call ev tail
      | _ =>
        let result := Expr.list (← evaluateEach ev (head :: tail))
        if needsAnotherPass (Expr.list (head :: tail)).render result.render then ev result
        else return result

/-- The value of an expression, where `ev` evaluates the expressions it leads
to. -/
def dispatch (ev : Expr → Eval Expr) : Expr → Eval Expr
  | .num t => pure (.num t)
  | .str t => pure (.str t)
  | .sym name => do
    match ← global? name with
    | none => fail (.unbound name)
    | some (.list items) => ev (.list items)
    | some value => return value
  | .quote t => do ev (← ofExcept (Expr.read t))
  | .list items => evaluateList ev items
  | .func _ => fail .notAnExpression

/-- The value that the turn has for the text, or else the one that `m` finds,
which is kept. -/
def remembered (text : Text) (m : Eval Expr) : Eval Expr := do
  match ← cached? text with
  | some value => return value
  | none =>
    let value ← m
    remember text value
    return value

/-- The value of an expression, with evaluations nested at most `depth` deep. -/
def evaluate : Nat → Expr → Eval Expr
  | 0, _ => tooDeep
  | depth + 1, e => do
    note (.entered e)
    let value ← remembered e.render (dispatch (fun e => evaluate depth e) e)
    note (.returned e value)
    return value

/-- How deep evaluations may be nested where nothing else is said. Where the bound is in
truth depends on the machine, so results hold for any. -/
def depthLimit : Nat := 100

end SpliceLisp
