/-
# The states of a run

Two things change a context, and both are on record: a name is bound, and the value
of an expression is kept when its evaluation ends. So the record of a run tells all
the states that the run goes through, one after each part of the record from its
beginning (`Context.after`). Where a run starts and what it records decide where it
ends, however it ends (`context_evaluate`, `context_evaluateText`).

The record carries some of these states itself, wherever an evaluation begins or ends
with a value, and they are the ones that it leads to (`after_eq_context`).

What is true in each of the states is true throughout (`Context.Throughout`).

Key definitions: `Context.next`, `Context.after`, `Context.Recounts`, `Context.Throughout`.
Key theorems: `Course.after_eq`, `Course.recounts`, `context_evaluate`,
`context_evaluateText`, `after_eq_context`.
-/
import Mathlib
import SpliceLisp.Proofs.Course

namespace SpliceLisp

open Eval

/-- The context that comes with an event: the one right after it. -/
def Event.context? : Event → Option Context
  | .entered _ c | .returned _ _ c => some c
  | .invoked _ _ | .applied _ _ | .bound _ _ | .exhausted => none

namespace Context

/-- What becomes of the context when the event happens. A value that is found is
kept already, so that keeping it makes no difference. -/
def next (c : Context) : Event → Context
  | .bound name v => c.bind name v
  | .returned e v _ => c.remember e.render v
  | .entered _ _ | .invoked _ _ | .applied _ _ | .exhausted => c

/-- The context after all the events, in order. -/
def after (c : Context) (es : List Event) : Context := es.foldl next c

/-- The contexts that come with the events are those that the events lead to. -/
def Recounts : Context → List Event → Prop
  | _, [] => True
  | c, event :: es => (∀ d ∈ event.context?, c.next event = d) ∧ (c.next event).Recounts es

/-- The condition is met after each part of the events, from none of them to all. -/
def Throughout (c : Context) (es : List Event) (P : Context → Prop) : Prop :=
  ∀ es', es' <+: es → P (c.after es')

variable {c : Context} {P : Context → Prop}

@[simp] theorem after_nil (c : Context) : c.after [] = c := rfl

@[simp] theorem after_cons (c : Context) (event : Event) (es : List Event) :
    c.after (event :: es) = (c.next event).after es := rfl

@[simp] theorem after_append (c : Context) (es fs : List Event) :
    c.after (es ++ fs) = (c.after es).after fs :=
  List.foldl_append

theorem recounts_append {es fs : List Event} :
    c.Recounts (es ++ fs) ↔ c.Recounts es ∧ (c.after es).Recounts fs := by
  induction es generalizing c with
  | nil => simp [Recounts]
  | cons event es ih => simp only [List.cons_append, Recounts, ih, after_cons, and_assoc]

/-- What comes with an event in the record is the context after all up to it. -/
theorem Recounts.after_eq {done rest : List Event} {event : Event} {d : Context}
    (h : c.Recounts (done ++ event :: rest)) (hd : event.context? = some d) :
    c.after (done ++ [event]) = d := by
  rw [after_append]
  exact (recounts_append.1 h).2.1 d hd

theorem remember_of_kept {text : Text} {v : Expr} (h : c.cache.get? text = some v) :
    c.remember text v = c := by
  rw [remember, Table.insert_of_get? h]

theorem throughout_nil : c.Throughout [] P ↔ P c := by
  simp [Throughout]

theorem throughout_cons {event : Event} {es : List Event} :
    c.Throughout (event :: es) P ↔ P c ∧ (c.next event).Throughout es P := by
  simp only [Throughout, List.prefix_cons_iff, or_imp, forall_and, forall_eq, after_nil]
  refine and_congr_right fun _ => ⟨fun h es' hes => h (event :: es') ⟨es', rfl, hes⟩, ?_⟩
  rintro h _ ⟨es', rfl, hes⟩
  exact h es' hes

theorem Throughout.first {es : List Event} (h : c.Throughout es P) : P c :=
  h [] List.nil_prefix

theorem Throughout.last {es : List Event} (h : c.Throughout es P) : P (c.after es) :=
  h es (List.prefix_refl es)

/-- The states are finitely many, so the condition can be checked in all of them. -/
instance decidableThroughout [DecidablePred P] :
    ∀ (c : Context) (es : List Event), Decidable (c.Throughout es P)
  | _, [] => decidable_of_iff _ throughout_nil.symm
  | c, event :: es =>
    have := decidableThroughout (c.next event) es
    decidable_of_iff _ throughout_cons.symm

end Context

namespace Course

variable {c d : Context} {es : List Event} {o : Bool}

/-- A run ends where its record leads. -/
theorem after_eq (h : Course c es o d) : c.after es = d := by
  induction h with
  | nothing | cut | invoked | applied | exhausted | bound => rfl
  | found hget => exact Context.remember_of_kept hget
  | @computed c d e v es _ _ _ _ ih =>
    rw [Context.after_cons, Context.after_append, show (c.next (.entered e c)).after es = d from ih]
    rfl
  | broken _ _ ih => exact ih
  | append _ _ ih₁ ih₂ => rw [Context.after_append, ih₁, ih₂]

/-- The record tells where the run has been. -/
theorem recounts (h : Course c es o d) : c.Recounts es := by
  induction h with
  | nothing | cut => trivial
  | invoked | applied | exhausted | bound => exact ⟨nofun, trivial⟩
  | found hget =>
    exact ⟨fun _ h => Option.some.inj h,
      fun _ h => (Context.remember_of_kept hget).trans (Option.some.inj h), trivial⟩
  | @computed c d e v es _ _ _ hes ih =>
    refine ⟨fun _ h => Option.some.inj h, Context.recounts_append.2 ⟨ih, ?_, trivial⟩⟩
    rintro _ ⟨⟩
    exact congrArg (Context.remember · e.render v) hes.after_eq
  | broken _ _ ih => exact ⟨fun _ h => Option.some.inj h, ih⟩
  | append h₁ _ ih₁ ih₂ => exact Context.recounts_append.2 ⟨ih₁, h₁.after_eq.symm ▸ ih₂⟩

end Course

/-- **An evaluation ends in the context that its record leads to**, also if it ends
without a value. -/
theorem context_evaluate (depth : Nat) (e : Expr) (c : Context) :
    (evaluate depth e c).context = c.after (evaluate depth e c).events :=
  (course_evaluate depth e c).after_eq.symm

/-- The evaluation of a text ends where its record leads. -/
theorem context_evaluateText (depth : Nat) (source : Text) (c : Context) :
    (evaluateText depth source c).context = c.after (evaluateText depth source c).events :=
  (course_evaluateText depth source c).after_eq.symm

/-- The context that comes with an event is the one that the record leads to, with
this event. -/
theorem after_eq_context {depth : Nat} {source : Text} {c d : Context} {done rest : List Event}
    {event : Event} (h : (evaluateText depth source c).events = done ++ event :: rest)
    (hd : event.context? = some d) : c.after (done ++ [event]) = d := by
  have hrecounts : c.Recounts (done ++ event :: rest) :=
    h ▸ (course_evaluateText depth source c).recounts
  exact hrecounts.after_eq hd

end SpliceLisp
