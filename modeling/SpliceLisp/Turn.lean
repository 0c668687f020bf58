/-
# Turns

A turn takes a text, reads all of it, and evaluates its expressions in order;
its value is that of the last one. A text that cannot be read as a whole is not
evaluated at all. Values kept for the turn are dropped when it ends, however it
ends.

`answer` is a turn as a session holds it: the reply is the value's text after
`> `, or the text of what went wrong, and there is no reply when the session is
asked to end.

Key definitions: `turn`, `reply`, `answer`.
-/
import SpliceLisp.Evaluation.Expressions
import SpliceLisp.Journal

namespace SpliceLisp

open Eval

/-- The value of the last expression, all being evaluated in order; `last` if
there is none. -/
def evaluateInOrder (depth : Nat) (last : Expr) : List Expr → Eval Expr
  | [] => pure last
  | e :: es => do evaluateInOrder depth (← evaluate depth e) es

/-- The value of a text that is read as a whole. -/
def evaluateText (depth : Nat) (source : Text) : Eval Expr :=
  let reading := Expr.readAll source
  match reading.fault with
  | some f => fail f
  | none => evaluateInOrder depth .nil reading.exprs

/-- The value of a text, after which the turn ends. -/
def turn (depth : Nat) (source : Text) : Eval Expr := fun c =>
  let run := evaluateText depth source c
  { run with context := run.context.endTurn }

/-- What a session says to the outcome of a turn, unless it ends. -/
def reply : Except Stop Expr → Option Text
  | .ok value => some ("> " ++ value.render)
  | .error .quit => none
  | .error (.fault f) => some f.message
  | .error .tooDeep => some "error: maximum recursion depth exceeded."
  | .error (.undefined _) => some "undefined operation"

/-- What comes of a line: what the session says, unless it ends, the context for the
next turn, and what the journal gets. -/
structure Answer where
  reply : Option Text
  context : Context
  records : List Record

/-- The record of a turn that was nested too deep. -/
def depthRecord (line : Text) : Except Stop Expr → List Record
  | .error .tooDeep => [.ofInterpreter ("recursion limit hit evaluating " ++ Text.quoted line)]
  | _ => []

/-- Takes a line as a turn. -/
def answer (c : Context) (line : Text) (depth : Nat := depthLimit) : Answer :=
  let run := turn depth line c
  ⟨reply run.outcome, run.context, run.records ++ depthRecord line run.outcome⟩

@[simp] theorem cache_turn (depth : Nat) (source : Text) (c : Context) :
    (turn depth source c).context.cache = ∅ := rfl

end SpliceLisp
