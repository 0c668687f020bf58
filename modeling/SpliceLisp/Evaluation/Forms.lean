/-
# Forms at work

Each form decides which of its arguments to evaluate.

* `quote` defers its argument: the value is its text.
* `let` binds a symbol to the value of its second argument and returns that
  argument as written.
* `lambda` builds a function out of its two arguments as written, unless the
  first is itself a function, which it then applies to the second.
* `apply` applies a list, or what the text of its first argument is bound to,
  to the items of the second argument's value.
* `cond` takes clauses of a test and a result, and gives the result of the first
  clause whose test is true. A clause is looked at when it is reached.
* `eval` evaluates the value of its argument.
* `quit` ends the session.

`apply` may name `apply`, and then one call leads to the next without being
nested in an evaluation. Such a chain need not end, so its length has a bound of
its own, `chainLimit`, which is the same however deep evaluations are nested.

Key definitions: `clauses`, `applyValue`, `Procedure.perform`, `Procedure.call`.
-/
import SpliceLisp.Evaluation.Functions
import SpliceLisp.Evaluation.Primitives

namespace SpliceLisp

open Eval

/-- The value of the first clause whose test is true. -/
def clauses (ev : Expr → Eval Expr) : List Expr → Eval Expr
  | [] => pure .nil
  | .list [test, result] :: rest => do
    if (← ev test).isTrue then ev result else clauses ev rest
  | _ :: _ => fail .malformedClause

/-- Applies a list as a function, or calls a procedure. Nothing else, and no
missing binding, can be applied. -/
def applyValue (ev : Expr → Eval Expr) (call : Procedure → List Expr → Eval Expr)
    (callee : Option Expr) (args : List Expr) : Eval Expr :=
  match callee with
  | some (.list items) => applyFunction ev items args
  | some (.func p) => call p args
  | _ => fail .notApplicable

/-- The function at the head of a list, applied to the one argument after it. That
is a call of `apply` on the list. -/
def applyHead (ev : Expr → Eval Expr) (route : Route) (es : List Expr) : Eval Expr := do
  note fun _ => .invoked (.form .apply) route
  match es with
  | [.list items, argument] => applyTo ev items argument
  | _ => fail (.formArity .apply)

namespace Form

/-- The form `quote`. -/
def defer : List Expr → Eval Expr
  | [e] => pure (.quote e.render)
  | _ => fail (.formArity .quote)

/-- The form `let`. -/
def bind (ev : Expr → Eval Expr) : List Expr → Eval Expr
  | [.sym name, e] => do
    bindGlobal name (← ev e)
    return e
  | [_, _] => fail .notBindable
  | _ => fail (.formArity .binding)

/-- The form `lambda`. -/
def abstract (ev : Expr → Eval Expr) : List Expr → Eval Expr
  | [first, second] =>
    if first.isFunction then applyHead ev (.within (.form .lambda)) [first, second]
    else pure (.list [.lambda, first, second])
  | _ => fail (.formArity .lambda)

/-- The form `apply`. -/
def applyWith (ev : Expr → Eval Expr) (call : Procedure → List Expr → Eval Expr) :
    List Expr → Eval Expr
  | [.list items, argument] => applyTo ev items argument
  | [named, argument] => do
    let callee ← global? named.render
    applyValue ev call callee (← ev argument).spread
  | _ => fail (.formArity .apply)

/-- The form `cond`. -/
def choose (ev : Expr → Eval Expr) : List Expr → Eval Expr
  | [] => fail (.formArity .cond)
  | es => clauses ev es

/-- The form `eval`. -/
def again (ev : Expr → Eval Expr) : List Expr → Eval Expr
  | [e] => do ev (← argument ev e)
  | _ => fail (.formArity .eval)

end Form

namespace Procedure

/-- Records that a procedure is called by its value. `neq` hands its arguments on to
`eq`, whatever that name is bound to. -/
def announce (p : Procedure) : Eval Unit := do
  note fun _ => .invoked p .value
  if p = primitive .neq then note fun _ => .invoked (primitive .eq) (.within p)

@[simp] theorem outcome_announce (p : Procedure) (c : Context) :
    (announce p c).outcome = .ok () := by
  unfold announce
  split <;> rfl

@[simp] theorem context_announce (p : Procedure) (c : Context) : (announce p c).context = c := by
  unfold announce
  split <;> rfl

/-- Calls a procedure on its arguments as given, in a chain that may have
`links` further calls of `apply`. -/
def perform (ev : Expr → Eval Expr) (links : Nat) (p : Procedure) (es : List Expr) : Eval Expr := do
  announce p
  match p with
  | primitive q => q.perform ev es
  | form .quote => Form.defer es
  | form .binding => Form.bind ev es
  | form .lambda => Form.abstract ev es
  | form .apply =>
    match links with
    | 0 => tooDeep
    | links + 1 => Form.applyWith ev (fun q fs => perform ev links q fs) es
  | form .cond => Form.choose ev es
  | form .eval => Form.again ev es
  | form .quit => stop .quit
  | inert _ => pure .nil

/-- How many calls of `apply` a chain may have. Where this bound is in truth depends on
the machine too, and no result uses more of it than that it is not zero. -/
def chainLimit : Nat := 1000

/-- Calls a procedure on its arguments as given. -/
def call (ev : Expr → Eval Expr) (p : Procedure) (es : List Expr) : Eval Expr :=
  p.perform ev chainLimit es

end Procedure

end SpliceLisp
