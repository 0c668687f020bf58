/-
# Expressions

Code and data are one type. A number and a string keep the text they were
written with (a string with its quotes), so that both can be put back into
source text; a deferred expression *is* source text. A list is a call, a
function or plain data, depending on who looks.

The truth values and the empty value are the symbols `#t`, `#f` and `#nil`. A
function is a list of three: the symbol `lambda`, a list of parameters and a
body.

Key definitions: `Expr`, `Expr.isFunction`.
-/
import SpliceLisp.Procedure

namespace SpliceLisp

/-- An expression, which is also what evaluation returns. A number and a string are as
written, the string with its quotes, and a deferred expression is its source text. -/
inductive Expr where
  | num (text : Text)
  | str (text : Text)
  | sym (name : Text)
  | quote (text : Text)
  | list (items : List Expr)
  | func (procedure : Procedure)

namespace Expr

instance : Inhabited Expr := ⟨list []⟩

/-- The true value. -/
def yes : Expr := sym "#t"

/-- The false value. -/
def no : Expr := sym "#f"

/-- The empty value. -/
def nil : Expr := sym "#nil"

/-- The name at the head of a function. -/
def lambdaName : Text := "lambda"

/-- The symbol at the head of a function. -/
def lambda : Expr := sym lambdaName

def ofBool (b : Bool) : Expr := if b then yes else no

def isList : Expr → Bool
  | list _ => true
  | _ => false

def isLambda : Expr → Bool
  | sym n => n = lambdaName
  | _ => false

/-- Whether the expression is a list headed by the symbol `lambda`. -/
def isFunction : Expr → Bool
  | list (head :: _) => head.isLambda
  | _ => false

theorem isLambda_iff (e : Expr) : e.isLambda = true ↔ e = lambda := by
  cases e <;> simp [isLambda, lambda]

end Expr

end SpliceLisp
