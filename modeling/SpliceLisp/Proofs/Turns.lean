/-
# What a turn respects

A relation that every step of the language respects (`Congruence`) and that a
round of evaluation carries over is respected by evaluations of any depth
(`Congruence.evaluate`) and by the evaluation of a whole text
(`Congruence.evaluateText`). A row of turns hands its context on, whatever the
outcome of each (`Context.afterTurns`).

Key definition: `Context.afterTurns`.
Key theorems: `Congruence.evaluate`, `Congruence.evaluateText`.
-/
import Mathlib
import SpliceLisp.Proofs.Congruence
import SpliceLisp.Proofs.RoundTrip
import SpliceLisp.Turn

namespace SpliceLisp

open Eval

/-- The context after a row of turns on the sources, whatever their outcomes. -/
def Context.afterTurns (depth : Nat) (c : Context) (sources : List Text) : Context :=
  sources.foldl (fun c source => (turn depth source c).context) c

theorem Context.cache_afterTurns (depth : Nat) {c : Context} (hc : c.cache = ∅) :
    ∀ sources : List Text, (c.afterTurns depth sources).cache = ∅ := by
  intro sources
  induction sources generalizing c with
  | nil => exact hc
  | cons source sources ih => exact ih (cache_turn depth source c)

theorem Context.afterTurns_append (depth : Nat) (c : Context) (sources later : List Text) :
    c.afterTurns depth (sources ++ later) = (c.afterTurns depth sources).afterTurns depth later :=
  List.foldl_append

theorem Domain.good_of_mem_readAll (D : Domain) {source : Text} {e : Expr}
    (h : e ∈ (Expr.readAll source).exprs) : D.good e := by
  obtain ⟨t, ht⟩ := Expr.exists_spells (Expr.readable_of_mem_readAll h)
  exact D.read ht.read

namespace Congruence

variable {ι : Type} {D : Domain} {R : Relation ι} (h : Congruence D R)
  (hround : ∀ (e : Expr) (ev : Expr → Eval Expr) (ev' : ι → Expr → Eval Expr), D.good e →
    R Expr (D.Returns e) (SpliceLisp.dispatch ev e) (fun i => SpliceLisp.dispatch (ev' i) e) →
      R Expr (D.Returns e) (round e (SpliceLisp.dispatch ev e))
        fun i => round e (SpliceLisp.dispatch (ev' i) e))
include h hround

/-- An evaluation respects the relation, at any depth. -/
theorem evaluate (depth : Nat) : ∀ e : Expr, D.good e →
    R Expr (D.Returns e) (evaluate depth e) fun _ => SpliceLisp.evaluate depth e := by
  induction depth with
  | zero => exact fun _ _ => h.tooDeep
  | succ depth ih =>
    intro e he
    rw [evaluate_succ]
    exact hround e _ _ he (h.dispatch ih he)

section InOrder

omit hround

variable {depth : Nat} (hev : ∀ e : Expr, D.good e →
  R Expr (D.Returns e) (SpliceLisp.evaluate depth e) fun _ => SpliceLisp.evaluate depth e)
include hev

theorem evaluateInOrder_of : ∀ {es : List Expr} {last : Expr}, D.Fine last →
    (∀ e ∈ es, D.good e) →
      R Expr D.Fine (evaluateInOrder depth last es)
        fun _ => SpliceLisp.evaluateInOrder depth last es
  | [], _, hlast, _ => h.pure hlast
  | e :: es, _, _, hes =>
    h.bind (hev e (hes e (by simp))) fun _ hv =>
      evaluateInOrder_of hv.1 fun d hd => hes d (List.mem_cons_of_mem e hd)

theorem evaluateText_of (source : Text) :
    R Expr D.Fine (evaluateText depth source) fun _ => SpliceLisp.evaluateText depth source := by
  simp only [SpliceLisp.evaluateText]
  split
  · exact h.fail _
  · exact h.evaluateInOrder_of hev Domain.fine_nil fun _ => D.good_of_mem_readAll

end InOrder

/-- The evaluation of a text respects the relation. -/
theorem evaluateText (depth : Nat) (source : Text) :
    R Expr D.Fine (evaluateText depth source) fun _ => SpliceLisp.evaluateText depth source :=
  h.evaluateText_of (h.evaluate hround depth) source

end Congruence

end SpliceLisp
