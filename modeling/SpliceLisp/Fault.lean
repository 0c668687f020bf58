/-
# Faults

What can be wrong with a text or with an expression, as causes; the wording is
in `Fault.message` alone. Faults fall into seven kinds. Arity faults name the
operator the way it is called, except that the remainder goes by `mod` under
both its names and inequality by `eq`.

Key definitions: `Fault`, `Fault.kind`, `Fault.message`.
-/
import SpliceLisp.Procedure
import SpliceLisp.Text.Quoted

namespace SpliceLisp

/-- A cause of failure. The text ends too early, or a character cannot stand at its
column. A symbol has no binding. A function has not three parts, or not as many
arguments as parameters, and an operator has not `count` arguments, or fewer than that.
Something stands where a function, a number, a truth value, a symbol to bind, a clause
or an expression has to be. A number is not finite, or a divisor is zero. -/
inductive Fault where
  | missingExpression
  | unclosedList
  | unterminatedString
  | unexpectedChar (char : Char) (column : Nat)
  | unbound (name : Text)
  | notThreeParts
  | parameterCount (expected given : Nat)
  | notExactly (operator : Text) (count : Nat)
  | notAtLeast (operator : Text) (count : Nat)
  | formArity (form : Form)
  | notLambda
  | notNumber
  | notBoolean
  | notBindable
  | malformedClause
  | notAnExpression
  | notApplicable
  | outOfRange
  | divisionByZero
  | moduloByZero
deriving DecidableEq, Repr

namespace Fault

/-- The kinds of faults. What is of no other kind is a fault of evaluation. -/
inductive Kind where
  | endOfInput
  | unexpectedChar
  | unboundSymbol
  | arity
  | type
  | malformed
  | evaluation
deriving DecidableEq, Repr

def kind : Fault → Kind
  | missingExpression | unclosedList | unterminatedString => .endOfInput
  | unexpectedChar _ _ => .unexpectedChar
  | unbound _ => .unboundSymbol
  | notThreeParts | parameterCount _ _ | notExactly _ _ | notAtLeast _ _ | formArity _ => .arity
  | notLambda | notNumber | notBoolean | notBindable => .type
  | malformedClause => .malformed
  | notAnExpression | notApplicable | outOfRange | divisionByZero | moduloByZero => .evaluation

/-- How many arguments a form takes, in words. Any number suits `quit`, which has no
rule. -/
def formRule? : Form → Option Text
  | .quote => some "quote expects exactly 1 argument."
  | .binding => some "let requires exactly 2 arguments."
  | .lambda => some "lambda requires a parameter list and a body."
  | .apply => some "apply expects exactly two arguments: function and argument list."
  | .cond => some "cond requires at least 1 clause."
  | .eval => some "eval expects exactly one argument."
  | .quit => none

/-- What is wrong, in words. -/
def detail : Fault → Text
  | missingExpression => "reached end of sequence."
  | unclosedList => "expected closing ')'."
  | unterminatedString => "unterminated string."
  | unexpectedChar c column =>
    "unexpected character '" ++ c :: "' at col " ++ Text.decimal column ++ "."
  | unbound name => "undefined symbol `Sym(" ++ Text.quoted name ++ ")`"
  | notThreeParts => "invalid number of arguments given."
  | parameterCount expected given =>
    "expected " ++ Text.decimal expected ++ " argument(s), got " ++ Text.decimal given ++ "."
  | notExactly operator count =>
    operator ++ " requires exactly " ++ Text.decimal count ++ " argument(s)."
  | notAtLeast operator count =>
    operator ++ " requires at least " ++ Text.decimal count ++ " arguments."
  | formArity f => (formRule? f).getD []
  | notLambda => "invalid argument(s) given."
  | notNumber => "value is not a number."
  | notBoolean => "value is not a boolean."
  | notBindable => "let requires a symbol as its first argument."
  | malformedClause => "malformed expression."
  | notAnExpression => "unexpected expression."
  | notApplicable => "execution error"
  | outOfRange => "number out of range."
  | divisionByZero => "division by zero."
  | moduloByZero => "modulo by zero."

def message (f : Fault) : Text := "error: " ++ f.detail

end Fault

end SpliceLisp
