/-
# Evaluation only adds to the tables

Evaluation takes nothing back. Whatever an expression comes to, a value, a fault
or one of the other stops, a value that was kept before is kept afterwards, and the
names that were bound before come first among those that are bound afterwards, in
the same order (`Context.Extends`). A name may be bound to something else; a text
never gets another value.

That is not plain from one step: a round keeps its value when all that it leads to
is over, whatever is kept under the text by then. But it gets there only if nothing
was kept under the text when it began, so what it writes over has come in since.

A value is kept under the text of its expression. So the expression has that value
again, and evaluating it again changes nothing (`evaluate_extends`).

Key definition: `Context.Extends`.
Key theorems: `Course.extends`, `evaluate_extends`.
-/
import Mathlib
import SpliceLisp.Proofs.Course

namespace SpliceLisp

open Eval

theorem Table.names_prefix_insert (t : Table) (name : Text) (value : Expr) :
    t.names <+: (t.insert name value).names := by
  rw [names_insert]
  split
  · exact List.prefix_refl _
  · exact List.prefix_append _ _

/-- All that `c` keeps is kept in `d`, and what is bound in `c` is bound in `d`, in
the same order and in front of what is new. -/
structure Context.Extends (c d : Context) : Prop where
  kept : ∀ {text : Text} {v : Expr}, c.cache.get? text = some v → d.cache.get? text = some v
  texts : c.cache.names <+: d.cache.names
  names : c.globals.names <+: d.globals.names

namespace Context.Extends

variable {b c d : Context}

theorem refl (c : Context) : c.Extends c := ⟨id, List.prefix_refl _, List.prefix_refl _⟩

theorem trans (h : b.Extends c) (h' : c.Extends d) : b.Extends d :=
  ⟨fun hv => h'.kept (h.kept hv), h.texts.trans h'.texts, h.names.trans h'.names⟩

theorem bind (c : Context) (name : Text) (v : Expr) : c.Extends (c.bind name v) :=
  ⟨id, List.prefix_refl _, Table.names_prefix_insert _ _ _⟩

/-- A value that is kept anew takes the place of none that was kept in `c`. -/
theorem remember (h : c.Extends d) {text : Text} (hnone : c.cache.get? text = none) (v : Expr) :
    c.Extends (d.remember text v) := by
  refine ⟨fun {t w} hw => ?_, h.texts.trans (Table.names_prefix_insert _ _ _), h.names⟩
  have hne : t ≠ text := by
    rintro rfl
    rw [hnone] at hw
    cases hw
  rw [Context.remember, Table.get?_insert_of_ne _ _ hne]
  exact h.kept hw

end Context.Extends

/-- A run takes nothing back, whatever its course. -/
theorem Course.extends {c d : Context} {es : List Event} {o : Bool} (h : Course c es o d) :
    c.Extends d := by
  induction h with
  | nothing | cut | invoked | applied | exhausted | found _ => exact .refl _
  | bound => exact .bind _ _ _
  | computed hnone _ _ ih => exact ih.remember hnone _
  | broken _ _ ih => exact ih
  | append _ _ ih₁ ih₂ => exact ih₁.trans ih₂

/-- **Evaluation only adds to the tables.** From any context and at any depth,
however the evaluation ends, the context afterwards extends the one before. If it
ends with a value, that is kept under the text of the expression. Evaluating the
expression again right away, at any depth at all, then ends with the same value and
leaves both tables as they are. -/
theorem evaluate_extends (depth : Nat) (e : Expr) (c : Context) :
    let run := evaluate depth e c
    c.Extends run.context ∧ ∀ v, run.outcome = .ok v →
      run.context.cache.get? e.render = some v ∧
        ∀ k, (evaluate (k + 1) e run.context).outcome = .ok v ∧
          (evaluate (k + 1) e run.context).context = run.context := by
  intro run
  have hextends : c.Extends run.context := (course_evaluate depth e c).extends
  refine ⟨hextends, fun v hv => ?_⟩
  have hrun : evaluate depth e c = ⟨.ok v, run.context, run.events⟩ := by rw [← hv]
  have hkept : run.context.cache.get? e.render = some v := kept_of_evaluate hrun
  refine ⟨hkept, fun k => ?_⟩
  rw [evaluate_of_kept hkept]
  exact ⟨rfl, rfl⟩

/-- A name is bound anew and another one comes in, before the evaluation fails. The
value that was kept for the name stays. -/
theorem evaluate_extends_rebound :
    let again : Expr := .list [.sym "let", .sym "a", .num "2"]
    let new : Expr := .list [.sym "let", .sym "b", .num "3"]
    let start := (turn depthLimit "(let a 1)" Context.startup).context
    let first := evaluate depthLimit (.sym "a") start
    let second := evaluate depthLimit (.list [.sym "cons", again, new, .sym "c"]) first.context
    (first.outcome = .ok (.num "1") ∧ second.outcome = .error (.fault (.unbound "c"))) ∧
      first.context.cache.get? "a" = some (.num "1") ∧
      second.context.cache.get? "a" = some (.num "1") ∧
      second.context.globals.get? "a" = some (.num "2") ∧
      first.context.globals.names <+: second.context.globals.names := by
  intro again new start first second
  have hfirst : first.outcome = .ok (.num "1") := by decide +kernel
  have hsecond : second.outcome = .error (.fault (.unbound "c")) := by decide +kernel
  have hbound : second.context.globals.get? "a" = some (.num "2") := by decide +kernel
  obtain ⟨hkept, -⟩ := (evaluate_extends depthLimit (.sym "a") start).2 _ hfirst
  obtain ⟨hextends, -⟩ :=
    evaluate_extends depthLimit (.list [.sym "cons", again, new, .sym "c"]) first.context
  exact ⟨⟨hfirst, hsecond⟩, hkept, hextends.kept hkept, hbound, hextends.names⟩

end SpliceLisp
