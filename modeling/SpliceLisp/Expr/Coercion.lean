/-
# Expressions as numbers and truth values

Only a number has a numeric value, read from its text; only `#t`, `#f` and
`#nil` have a truth value. A finite double becomes a number by its positional
text.

Key definitions: `Expr.toNumber`, `Expr.toBool`, `Expr.ofNumber`.
-/
import SpliceLisp.Binary64.Shortest
import SpliceLisp.Expr.Basic
import SpliceLisp.Fault

namespace SpliceLisp

namespace Expr

/-- The double nearest to what a number writes. -/
def toNumber : Expr → Except Fault Binary64
  | num t =>
    match Numeral.ofText? t with
    | some n => .ok (Binary64.ofNumeral n)
    | none => .error .notNumber
  | _ => .error .notNumber

def toBool : Expr → Except Fault Bool
  | sym n =>
    if n = "#t".toList then .ok true
    else if n = "#f".toList ∨ n = "#nil".toList then .ok false
    else .error .notBoolean
  | _ => .error .notBoolean

def isTrue (e : Expr) : Bool :=
  match e.toBool with
  | .ok b => b
  | .error _ => false

/-- The number that writes a finite double. -/
def ofNumber (x : Binary64) : Except Fault Expr :=
  match x.text? with
  | some t => .ok (num t)
  | none => .error .outOfRange

theorem toBool_ofBool (b : Bool) : (ofBool b).toBool = .ok b := by cases b <;> rfl

end Expr

end SpliceLisp
