/-
# Primitives at work

A primitive counts its arguments first, then evaluates them from left to right;
a deferred argument is handed over as it is. Numbers and truth values are
looked at when all arguments have values, and numbers have to be finite.

How to evaluate an expression is a parameter, `ev`, here and in the modules that
build on this one.

Key definitions: `arguments`, `Primitive.perform`.
-/
import SpliceLisp.Binary64.Arithmetic
import SpliceLisp.Evaluation.Basic
import SpliceLisp.Expr.Coercion
import SpliceLisp.Expr.Equality

namespace SpliceLisp

open Eval

/-- The value of an argument. A deferred one stands for itself. -/
def argument (ev : Expr → Eval Expr) : Expr → Eval Expr
  | .quote t => pure (.quote t)
  | e => ev e

/-- The values of the arguments, from left to right. -/
def arguments (ev : Expr → Eval Expr) : List Expr → Eval (List Expr)
  | [] => pure []
  | e :: es => do
    let v ← argument ev e
    let vs ← arguments ev es
    return v :: vs

/-- The arguments as finite numbers. -/
def numbers (ev : Expr → Eval Expr) (es : List Expr) : Eval (List Binary64) := do
  let xs ← ofExcept ((← arguments ev es).mapM Expr.toNumber)
  if xs.all Binary64.isFinite then return xs else fail .outOfRange

/-- The arguments as truth values. -/
def booleans (ev : Expr → Eval Expr) (es : List Expr) : Eval (List Bool) := do
  ofExcept ((← arguments ev es).mapM Expr.toBool)

def theOne {α : Type} : List α → Option α
  | [a] => some a
  | _ => none

def theTwo {α : Type} : List α → Option (α × α)
  | [a, b] => some (a, b)
  | _ => none

def headAndRest {α : Type} : List α → Option (α × List α)
  | a :: as => some (a, as)
  | [] => none

namespace Primitive

inductive Arity where
  | exactly (count : Nat)
  | atLeast (count : Nat)
deriving DecidableEq, Repr

def arity : Primitive → Arity
  | add | sub | and | or => .atLeast 2
  | mul | div | mod | percent | less | greater | eq | neq => .exactly 2
  | not | car | cdr | atom => .exactly 1
  | cons => .atLeast 1

/-- The name that a complaint about the number of arguments uses. -/
def operator : Primitive → Text
  | percent => mod.name
  | neq => eq.name
  | p => p.name

/-- What is wrong with so many arguments, if anything. -/
def arityFault? (p : Primitive) (given : Nat) : Option Fault :=
  match p.arity with
  | .exactly count => if given = count then none else some (.notExactly p.operator count)
  | .atLeast count => if count ≤ given then none else some (.notAtLeast p.operator count)

/-- The result as a number. -/
def number (x : Binary64) : Eval Expr := ofExcept (Expr.ofNumber x)

def remainder (ev : Expr → Eval Expr) (es : List Expr) : Eval Expr := do
  let (n, d) ← defined .unpacking (theTwo (← numbers ev es))
  if d.isZero then fail .moduloByZero else number (← defined .remainder (n.rem? d))

/-- Whether two arguments have equal values. -/
def equal (ev : Expr → Eval Expr) (es : List Expr) : Eval Bool := do
  let (a, b) ← defined .unpacking (theTwo (← arguments ev es))
  return a.same b

/-- The value of the one argument, if that is a list. -/
def listItems (ev : Expr → Eval Expr) (es : List Expr) : Eval (List Expr) := do
  match ← ev (← defined .unpacking (theOne es)) with
  | .list items => return items
  | _ => return []

/-- Performs a primitive on arguments of the right number. -/
def compute (ev : Expr → Eval Expr) (es : List Expr) : Primitive → Eval Expr
  | add => do number (Binary64.sum (← numbers ev es))
  | sub => do
    let (first, rest) ← defined .unpacking (headAndRest (← numbers ev es))
    number (first.sub (Binary64.sum rest))
  | mul => do
    let (a, b) ← defined .unpacking (theTwo (← numbers ev es))
    number (a.mul b)
  | div => do
    let (a, b) ← defined .unpacking (theTwo (← numbers ev es))
    if b.isZero then fail .divisionByZero else number (← defined .quotient (a.div? b))
  | mod => remainder ev es
  | percent => remainder ev es
  | less => do
    let (a, b) ← defined .unpacking (theTwo (← numbers ev es))
    return .ofBool (a.less b)
  | greater => do
    let (a, b) ← defined .unpacking (theTwo (← numbers ev es))
    return .ofBool (b.less a)
  | and => do return .ofBool ((← booleans ev es).all id)
  | or => do return .ofBool ((← booleans ev es).any id)
  | not => do return .ofBool (!(← defined .unpacking (theOne (← booleans ev es))))
  | cons => do return .list (← arguments ev es)
  | car => do
    match ← listItems ev es with
    | [] => return .nil
    | first :: _ => argument ev first
  | cdr => do
    match ← listItems ev es with
    | [] => return .nil
    | _ :: rest => return .list (← arguments ev rest)
  | atom => do return .ofBool (!(← defined .unpacking (theOne es)).isList)
  | eq => do return .ofBool (← equal ev es)
  | neq => do return .ofBool (!(← equal ev es))

/-- Performs a primitive on its arguments as written. -/
def perform (ev : Expr → Eval Expr) (p : Primitive) (es : List Expr) : Eval Expr :=
  match p.arityFault? es.length with
  | some f => fail f
  | none => p.compute ev es

end Primitive

end SpliceLisp
