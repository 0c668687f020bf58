/-
# Contexts

What evaluation reads and writes: the global bindings, which live as long as
the session, and the values that the current turn has found, each under the
text of its expression.

Key definitions: `Context`, `Context.startup`.
-/
import SpliceLisp.Table

namespace SpliceLisp

/-- The state of a session: the global bindings, and the values found in the current
turn, by the text of the expression. -/
structure Context where
  globals : Table
  cache : Table

namespace Context

def empty : Context := ⟨∅, ∅⟩

/-- The truth values and the empty value, bound to themselves. -/
def constantBindings : List (Text × Expr) := [("#t", .yes), ("#f", .no), ("#nil", .nil)]

/-- The builtins, each bound to its name. -/
def builtinBindings : List (Text × Expr) := Procedure.builtins.map fun p => (p.name, .func p)

/-- What a session binds at its start. -/
def startupBindings : List (Text × Expr) := constantBindings ++ builtinBindings

def startup : Context := ⟨Table.empty.insertAll startupBindings, ∅⟩

def bind (c : Context) (name : Text) (value : Expr) : Context :=
  { c with globals := c.globals.insert name value }

/-- The context with the value of an expression's text kept for the turn. -/
def remember (c : Context) (text : Text) (value : Expr) : Context :=
  { c with cache := c.cache.insert text value }

def endTurn (c : Context) : Context := { c with cache := ∅ }

/-- The global names in the order of their code points. -/
def sortedNames (c : Context) : List Text := Text.sorted c.globals.names

/-- The global name at the given place among those that begin with the text. -/
def completion? (c : Context) (text : Text) (place : Nat) : Option Text :=
  (c.sortedNames.filter fun n => text.isPrefixOf n)[place]?

/-- The global bindings as text. -/
def render (c : Context) : Text := c.globals.render

/-- Both tables as text. -/
def inspect (c : Context) : Text :=
  "<Context globals=" ++ c.globals.render ++ " locals=" ++ c.cache.render ++ ">"

@[simp] theorem globals_remember (c : Context) (text : Text) (value : Expr) :
    (c.remember text value).globals = c.globals := rfl

@[simp] theorem cache_bind (c : Context) (name : Text) (value : Expr) :
    (c.bind name value).cache = c.cache := rfl

@[simp] theorem globals_endTurn (c : Context) : c.endTurn.globals = c.globals := rfl

@[simp] theorem cache_endTurn (c : Context) : c.endTurn.cache = ∅ := rfl

end Context

end SpliceLisp
