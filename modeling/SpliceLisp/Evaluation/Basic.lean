/-
# Evaluations

An evaluation starts in a context and ends with a value or stops; either way it
leaves a context behind and a record of what happened on the way. The record is
only ever added to and nothing reads it, so it cannot change what an evaluation
does.

Key definitions: `Stop`, `Event`, `Run`, `Eval`.
Key theorems: `Eval.bind_ok`, `Eval.bind_error`.
-/
import SpliceLisp.Context
import SpliceLisp.Fault

namespace SpliceLisp

/-- The operations that are defined for some arguments only: quotient and remainder for
finite numbers and a divisor other than zero, and taking apart a list that has to have a
certain length. -/
inductive Operation where
  | quotient
  | remainder
  | unpacking
deriving DecidableEq, Repr

/-- Why an evaluation stops without a value: for a fault, because the session is asked
to end, because evaluations are nested deeper than allowed, or at an operation that is
not defined for what it is given. -/
inductive Stop where
  | fault (f : Fault)
  | quit
  | tooDeep
  | undefined (operation : Operation)
deriving DecidableEq, Repr

/-- The way in which a procedure comes to be called: as the value of the head of a
list or what `apply` finds under a name; for a list that a function heads, which
`apply` is called with whatever its name is bound to; or by the code of another
procedure. -/
inductive Route where
  | value
  | head
  | within (caller : Procedure)
deriving DecidableEq, Repr

/-- Something that happens during an evaluation: an expression is entered and
returns a value, each in a context, a procedure is called, the body of a function
becomes a text, a global name is bound, the bound on nested evaluations is met. -/
inductive Event where
  | entered (expr : Expr) (context : Context)
  | returned (expr value : Expr) (context : Context)
  | invoked (procedure : Procedure) (route : Route)
  | applied (function : Expr) (source : Text)
  | bound (name : Text) (value : Expr)
  | exhausted

/-- How an evaluation went: the value, or why there is none, the context afterwards, and
what happened, in order. -/
structure Run (α : Type) where
  outcome : Except Stop α
  context : Context
  events : List Event

/-- What happens first and what happens then. Where nothing follows nothing is
copied, so that the record of a long row of evaluations takes time in proportion
to its length. -/
def joined : List Event → List Event → List Event
  | es, [] => es
  | es, fs => es ++ fs

@[simp] theorem joined_eq_append (es fs : List Event) : joined es fs = es ++ fs := by
  cases fs <;> simp [joined]

/-- An evaluation: how it goes from each context. -/
def Eval (α : Type) : Type := Context → Run α

namespace Eval

variable {α β : Type}

/-- Ends with a value at once. -/
protected def pure (a : α) : Eval α := fun c => ⟨.ok a, c, []⟩

/-- Goes on from the value of `m`, if it has one, in the context it leaves. -/
protected def bind (m : Eval α) (f : α → Eval β) : Eval β := fun c =>
  let first := m c
  match first.outcome with
  | .ok a =>
    let second := f a first.context
    ⟨second.outcome, second.context, joined first.events second.events⟩
  | .error s => ⟨.error s, first.context, first.events⟩

instance : Monad Eval where
  pure := Eval.pure
  bind := Eval.bind

def stop (s : Stop) : Eval α := fun c => ⟨.error s, c, []⟩

/-- Stops because evaluations would be nested deeper than allowed. -/
def tooDeep : Eval α := fun c => ⟨.error .tooDeep, c, [.exhausted]⟩

def fail (f : Fault) : Eval α := stop (.fault f)

/-- Ends with the value of a computation, or stops because of its fault. -/
def ofExcept : Except Fault α → Eval α
  | .ok a => pure a
  | .error f => fail f

/-- Ends with a value, or stops because the operation has none. -/
def defined (operation : Operation) : Option α → Eval α
  | some a => pure a
  | none => stop (.undefined operation)

/-- Records that something happens. -/
def note (event : Context → Event) : Eval Unit := fun c => ⟨.ok (), c, [event c]⟩

def global? (name : Text) : Eval (Option Expr) := fun c => ⟨.ok (c.globals.get? name), c, []⟩

def bindGlobal (name : Text) (value : Expr) : Eval Unit :=
  fun c => ⟨.ok (), c.bind name value, [.bound name value]⟩

/-- The value that the turn has found for the text. -/
def cached? (text : Text) : Eval (Option Expr) := fun c => ⟨.ok (c.cache.get? text), c, []⟩

/-- Keeps the value of the text for the turn. -/
def remember (text : Text) (value : Expr) : Eval Unit :=
  fun c => ⟨.ok (), c.remember text value, []⟩

instance : LawfulMonad Eval := LawfulMonad.mk' _
  (fun m => by
    funext c
    change Eval.bind m Eval.pure c = m c
    simp only [Eval.bind, Eval.pure]
    cases h : (m c).outcome <;> simp [← h])
  (fun a f => by
    funext c
    change Eval.bind (Eval.pure a) f c = f a c
    simp [Eval.bind, Eval.pure])
  (fun m f g => by
    funext c
    change Eval.bind (Eval.bind m f) g c = Eval.bind m (fun a => Eval.bind (f a) g) c
    simp only [Eval.bind]
    cases (m c).outcome with
    | error s => rfl
    | ok a => cases h : (f a (m c).context).outcome <;> simp [h])

/-! ### Running -/

@[simp] theorem pure_apply (a : α) (c : Context) : (pure a : Eval α) c = ⟨.ok a, c, []⟩ := rfl

@[simp] theorem stop_apply (s : Stop) (c : Context) : (stop s : Eval α) c = ⟨.error s, c, []⟩ := rfl

/-- After a value, what follows runs in the context left behind. -/
theorem bind_ok {m : Eval α} {f : α → Eval β} {c d : Context} {a : α} {es : List Event}
    (h : m c = ⟨.ok a, d, es⟩) :
    (m >>= f) c = ⟨(f a d).outcome, (f a d).context, es ++ (f a d).events⟩ := by
  change Eval.bind m f c = _
  simp [Eval.bind, h]

/-- After a stop nothing follows. -/
theorem bind_error {m : Eval α} {f : α → Eval β} {c d : Context} {s : Stop} {es : List Event}
    (h : m c = ⟨.error s, d, es⟩) : (m >>= f) c = ⟨.error s, d, es⟩ := by
  change Eval.bind m f c = _
  simp [Eval.bind, h]

theorem bind_apply (m : Eval α) (f : α → Eval β) (c : Context) :
    (m >>= f) c = match (m c).outcome with
      | .ok a => ⟨(f a (m c).context).outcome, (f a (m c).context).context,
          (m c).events ++ (f a (m c).context).events⟩
      | .error s => ⟨.error s, (m c).context, (m c).events⟩ := by
  change Eval.bind m f c = _
  simp only [Eval.bind, joined_eq_append]

end Eval

end SpliceLisp
