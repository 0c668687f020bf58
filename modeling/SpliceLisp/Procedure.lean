/-
# Procedures

What the language brings along: primitives, which work on the values of their
arguments, and forms, which decide for themselves what to evaluate. A procedure
goes by one name. Any other name can be given to an inert procedure, which
takes anything and does nothing.

Key definitions: `Primitive`, `Form`, `Procedure`, `Procedure.name`,
`Procedure.ofName`.
-/
import SpliceLisp.Text.Basic

namespace SpliceLisp

/-- A procedure on the values of its arguments. The remainder goes by two names. -/
inductive Primitive where
  | add
  | sub
  | mul
  | div
  | mod
  | percent
  | less
  | greater
  | and
  | or
  | not
  | cons
  | car
  | cdr
  | atom
  | eq
  | neq
deriving DecidableEq, Repr

/-- A procedure that decides which of its arguments to evaluate. -/
inductive Form where
  | quote
  | binding
  | lambda
  | apply
  | cond
  | eval
  | quit
deriving DecidableEq, Repr

/-- A value that can be called. One of another name than the builtins have is without
effect. -/
inductive Procedure where
  | primitive (p : Primitive)
  | form (f : Form)
  | inert (name : Text)
deriving DecidableEq, Repr

/-- The primitives in the order in which a session binds them. -/
def Primitive.all : List Primitive :=
  [.add, .sub, .mul, .div, .mod, .percent, .less, .greater, .and, .or, .not, .cons, .car, .cdr,
    .atom, .eq, .neq]

/-- The forms in the order in which a session binds them. -/
def Form.all : List Form := [.quote, .binding, .lambda, .apply, .cond, .eval, .quit]

/-- The name a primitive is bound to. -/
def Primitive.name : Primitive → Text
  | .add => "+"
  | .sub => "-"
  | .mul => "*"
  | .div => "/"
  | .mod => "mod"
  | .percent => "%"
  | .less => "<"
  | .greater => ">"
  | .and => "and"
  | .or => "or"
  | .not => "not"
  | .cons => "cons"
  | .car => "car"
  | .cdr => "cdr"
  | .atom => "atom"
  | .eq => "eq"
  | .neq => "neq"

/-- The name a form is bound to. -/
def Form.name : Form → Text
  | .quote => "quote"
  | .binding => "let"
  | .lambda => "lambda"
  | .apply => "apply"
  | .cond => "cond"
  | .eval => "eval"
  | .quit => "quit"

namespace Procedure

def name : Procedure → Text
  | primitive p => p.name
  | form f => f.name
  | inert n => n

/-- The primitives, then the forms. -/
def builtins : List Procedure := Primitive.all.map primitive ++ Form.all.map form

/-- The procedure of a name: the primitive or form of that name, else an inert
procedure. -/
def ofName (n : Text) : Procedure := (builtins.find? fun p => p.name = n).getD (inert n)

theorem nodup_name_builtins : (builtins.map name).Nodup := by decide

theorem name_ofName (n : Text) : (ofName n).name = n := by
  simp only [ofName]
  cases h : builtins.find? fun p => p.name = n with
  | none => rfl
  | some p => simpa using List.find?_some h

end Procedure

end SpliceLisp
