/-
# Deferred texts and what they read as

The value of a deferred text is that of the expression which it reads as. The two have
one text, so what is kept for the one is kept for the other. If something is, neither
is evaluated. If not, the step into the deferred text evaluates the expression, which
keeps its value, and to keep that once more changes nothing (`evaluate_deferred`). So
in any context the two have the same outcome and leave the same context, with room for
one evaluation more (`Expr.evaluate_quote`).

The expression is the one without marks, `Expr.unquoted`, for this is what the text
of an expression reads as.

Key theorems: `evaluate_deferred`, `evaluate_deferred_of_finished`, `Expr.evaluate_quote`.
-/
import Mathlib
import SpliceLisp.Proofs.Cache
import SpliceLisp.Proofs.Depth
import SpliceLisp.Proofs.Retrace

namespace SpliceLisp

open Eval

section Deferred

variable {t : Text} {d : Expr} (hread : Expr.read t = .ok d) (htext : d.render = t)
include hread htext

/-- One evaluation further in, a deferred text is what it reads as, if that has the same
text: what is kept for the one is kept for the other, and keeping the value twice is
keeping it once. -/
theorem evaluate_deferred (depth : Nat) (c : Context) :
    (evaluate (depth + 2) (.quote t) c).outcome = (evaluate (depth + 1) d c).outcome ∧
      (evaluate (depth + 2) (.quote t) c).context = (evaluate (depth + 1) d c).context := by
  subst htext
  have hrender : (Expr.quote d.render).render = d.render := rfl
  cases hget : c.cache.get? d.render with
  | some v => simp only [evaluate_of_kept hget, evaluate_of_kept (hrender.symm ▸ hget), and_self]
  | none =>
    have hnone : c.cache.get? (Expr.quote d.render).render = none := hrender.symm ▸ hget
    cases hrun : evaluate (depth + 1) d c with
    | mk outcome after es =>
    have hstep : dispatch (fun e => evaluate (depth + 1) e) (.quote d.render) c =
        ⟨outcome, after, es⟩ := by
      rw [dispatch_quote hread]
      exact hrun
    cases outcome with
    | error s => rw [evaluate_of_error hnone hstep]; exact ⟨rfl, rfl⟩
    | ok v =>
      have hkept : after.cache.get? d.render = some v := kept_of_evaluate hrun
      rw [evaluate_of_ok hnone hstep, hrender, Context.remember_of_kept hkept]
      exact ⟨rfl, rfl⟩

/-- Depths aside, the two end alike. -/
theorem evaluate_deferred_of_finished {m n : Nat} {c : Context}
    (hm : (evaluate m (.quote t) c).outcome ≠ .error .tooDeep)
    (hn : (evaluate n d c).outcome ≠ .error .tooDeep) :
    (evaluate m (.quote t) c).outcome = (evaluate n d c).outcome ∧
      (evaluate m (.quote t) c).context = (evaluate n d c).context := by
  have hboth := evaluate_deferred hread htext (max m n) c
  rwa [evaluate_eq_of_le (by omega) hm, evaluate_eq_of_le (by omega) hn] at hboth

end Deferred

namespace Expr

/-- **The evaluation of a text is that of the expression.** Let the expression come from
a reader. In any context, its text as a deferred one and the expression with its marks
replaced by what they defer have the same value or the same failure, and leave the
same context: globals and kept values, in their order. The deferred one needs room for
one evaluation more; where both finish, the depths do not matter. -/
theorem evaluate_quote {e : Expr} (h : e.Produced) (c : Context) :
    (∀ depth, (evaluate (depth + 2) (.quote e.render) c).outcome =
        (evaluate (depth + 1) e.unquoted c).outcome ∧
      (evaluate (depth + 2) (.quote e.render) c).context =
        (evaluate (depth + 1) e.unquoted c).context) ∧
    ∀ m n, (evaluate m (.quote e.render) c).outcome ≠ .error .tooDeep →
      (evaluate n e.unquoted c).outcome ≠ .error .tooDeep →
        (evaluate m (.quote e.render) c).outcome = (evaluate n e.unquoted c).outcome ∧
          (evaluate m (.quote e.render) c).context = (evaluate n e.unquoted c).context := by
  have he : e.Readable := produced_iff.1 h
  have hread : read e.render = .ok e.unquoted := read_render he
  have htext : e.unquoted.render = e.render := render_unquoted he
  exact ⟨fun depth => evaluate_deferred hread htext depth c,
    fun m n hm hn => evaluate_deferred_of_finished hread htext hm hn⟩

/-- In the middle of a turn, with values kept. The expression binds a name, and a mark in
it defers a text with a mark. -/
theorem evaluate_quote_binding :
    let c := (evaluateText depthLimit "(let a 2) (cons 1 a)" Context.startup).context
    let e : Expr := list [sym "cons", quote "(let b (car (a 1)))", list [quote "b", num "1"]]
    let v : Expr := list [list [sym "car", list [sym "a", num "1"]], list [num "2", num "1"]]
    e.Produced ∧ c.cache.get? "(cons 1 a)" = some (list [num "1", num "2"]) ∧
      (evaluate 9 (.quote e.render) c).outcome = (evaluate 8 e.unquoted c).outcome ∧
      (evaluate 9 (.quote e.render) c).context = (evaluate 8 e.unquoted c).context ∧
      (evaluate 8 e.unquoted c).outcome = .ok v := by
  intro c e v
  have he : e.Produced := ⟨"(cons '(let b (car ('a 1))) ('b 1))".toList, Or.inl (by decide +kernel)⟩
  have hkept : c.cache.get? "(cons 1 a)" = some (list [num "1", num "2"]) := by decide +kernel
  have hvalue : (evaluate 8 e.unquoted c).outcome = .ok v := by decide +kernel
  obtain ⟨hboth, -⟩ := evaluate_quote he c
  exact ⟨he, hkept, (hboth 7).1, (hboth 7).2, hvalue⟩

end Expr

end SpliceLisp
