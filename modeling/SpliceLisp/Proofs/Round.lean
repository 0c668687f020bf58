/-
# One round of evaluation

What `evaluate` does at one depth, whatever the one step into the expression is,
in three equations: a value that is kept under the text ends the round; if there
is none, the round takes the step, and keeps the value that comes of it or stops
as that stops. Beside them stand what a value that is kept adds to an invariant
of those kept, and the one step of `cond` that its definition hides, a clause
that is no pair.

Key definition: `round`.
Key theorems: `forall_kept_remember`, `round_of_kept`, `round_of_ok`, `round_of_error`,
`kept_of_evaluate`, `evaluate_again`.
-/
import SpliceLisp.Evaluation.Expressions

namespace SpliceLisp

open Eval

theorem clauses_malformed {ev : Expr → Eval Expr} {c : Expr}
    (hc : ∀ test result, c ≠ .list [test, result]) (cs : List Expr) :
    clauses ev (c :: cs) = fail .malformedClause := by
  unfold clauses
  split
  · next heq => cases heq
  · next heq => exact absurd (List.cons.inj heq).1 (hc _ _)
  · rfl

/-- What holds of all kept values still holds when it holds of one more. -/
theorem forall_kept_remember {P : Text → Expr → Prop} {c : Context} {text : Text} {v : Expr}
    (hc : ∀ t w, c.cache.get? t = some w → P t w) (hv : P text v) :
    ∀ t w, (c.remember text v).cache.get? t = some w → P t w := by
  intro t w hw
  by_cases ht : t = text
  · subst ht
    rw [Context.remember, Table.get?_insert_self] at hw
    exact Option.some.inj hw ▸ hv
  · rw [Context.remember, Table.get?_insert_of_ne _ _ ht] at hw
    exact hc t w hw

/-- What evaluation does around one step `m` into the expression. -/
def round (e : Expr) (m : Eval Expr) : Eval Expr := do
  note (.entered e)
  let value ← remembered e.render m
  note (.returned e value)
  return value

theorem evaluate_succ (depth : Nat) (e : Expr) :
    evaluate (depth + 1) e = round e (dispatch (fun e => evaluate depth e) e) := rfl

section Round

variable {e : Expr} {m : Eval Expr} {c d : Context} {es : List Event}

theorem round_of_remembered {v : Expr} (h : remembered e.render m c = ⟨.ok v, d, es⟩) :
    round e m c = ⟨.ok v, d, .entered e c :: (es ++ [.returned e v d])⟩ := by
  have hentered : note (.entered e) c = ⟨.ok (), c, [.entered e c]⟩ := rfl
  rw [round, bind_ok hentered, bind_ok h]
  rfl

theorem round_of_kept {v : Expr} (h : c.cache.get? e.render = some v) :
    round e m c = ⟨.ok v, c, [.entered e c, .returned e v c]⟩ := by
  have hfound : cached? e.render c = ⟨.ok (some v), c, []⟩ := by rw [cached?, h]
  have hrun : remembered e.render m c = ⟨.ok v, c, []⟩ := by
    rw [remembered, bind_ok hfound]
    rfl
  rw [round_of_remembered hrun, List.nil_append]

section Step

variable (hnone : c.cache.get? e.render = none)
include hnone

theorem round_of_ok {v : Expr} (h : m c = ⟨.ok v, d, es⟩) :
    round e m c = ⟨.ok v, d.remember e.render v,
      .entered e c :: (es ++ [.returned e v (d.remember e.render v)])⟩ := by
  have hlooked : cached? e.render c = ⟨.ok none, c, []⟩ := by rw [cached?, hnone]
  have hrun : remembered e.render m c = ⟨.ok v, d.remember e.render v, es⟩ := by
    have hkeep : remember e.render v d = ⟨.ok (), d.remember e.render v, []⟩ := rfl
    rw [remembered, bind_ok hlooked]
    simp only [bind_ok h, bind_ok hkeep, pure_apply, List.nil_append, List.append_nil]
  exact round_of_remembered hrun

theorem round_of_error {s : Stop} (h : m c = ⟨.error s, d, es⟩) :
    round e m c = ⟨.error s, d, .entered e c :: es⟩ := by
  have hentered : note (.entered e) c = ⟨.ok (), c, [.entered e c]⟩ := rfl
  have hlooked : cached? e.render c = ⟨.ok none, c, []⟩ := by rw [cached?, hnone]
  have hrun : remembered e.render m c = ⟨.error s, d, es⟩ := by
    rw [remembered, bind_ok hlooked]
    simp only [bind_error h, List.nil_append]
  rw [round, bind_ok hentered, bind_error hrun]
  rfl

end Step

/-! The same for `evaluate`, whose one step is `dispatch`. -/

variable {depth : Nat}

theorem evaluate_of_kept {v : Expr} (h : c.cache.get? e.render = some v) :
    evaluate (depth + 1) e c = ⟨.ok v, c, [.entered e c, .returned e v c]⟩ := round_of_kept h

variable (hnone : c.cache.get? e.render = none)
include hnone

theorem evaluate_of_ok {v : Expr} (h : dispatch (fun e => evaluate depth e) e c = ⟨.ok v, d, es⟩) :
    evaluate (depth + 1) e c = ⟨.ok v, d.remember e.render v,
      .entered e c :: (es ++ [.returned e v (d.remember e.render v)])⟩ := round_of_ok hnone h

theorem evaluate_of_error {s : Stop}
    (h : dispatch (fun e => evaluate depth e) e c = ⟨.error s, d, es⟩) :
    evaluate (depth + 1) e c = ⟨.error s, d, .entered e c :: es⟩ := round_of_error hnone h

theorem outcome_evaluate :
    (evaluate (depth + 1) e c).outcome = (dispatch (fun e => evaluate depth e) e c).outcome := by
  cases hrun : dispatch (fun e => evaluate depth e) e c with
  | mk outcome d es =>
  cases outcome with
  | ok v => rw [evaluate_of_ok hnone hrun]
  | error s => rw [evaluate_of_error hnone hrun]

omit hnone

/-- A value is kept under the text of the expression that has it. -/
theorem kept_of_evaluate {v : Expr} (h : evaluate depth e c = ⟨.ok v, d, es⟩) :
    d.cache.get? e.render = some v := by
  cases depth with
  | zero => cases h
  | succ depth =>
    cases hget : c.cache.get? e.render with
    | some w =>
      rw [evaluate_of_kept hget] at h
      cases h
      exact hget
    | none =>
      cases hrun : dispatch (fun e => evaluate depth e) e c with
      | mk outcome d' es' =>
      cases outcome with
      | error s => rw [evaluate_of_error hget hrun] at h; cases h
      | ok w =>
        rw [evaluate_of_ok hget hrun] at h
        cases h
        exact Table.get?_insert_self _ _ _

/-- What has a value is found when it is evaluated again at once. -/
theorem evaluate_again {v : Expr} (h : evaluate depth e c = ⟨.ok v, d, es⟩) :
    evaluate depth e d = ⟨.ok v, d, [.entered e d, .returned e v d]⟩ := by
  cases depth with
  | zero => cases h
  | succ depth => exact evaluate_of_kept (kept_of_evaluate h)

end Round

end SpliceLisp
