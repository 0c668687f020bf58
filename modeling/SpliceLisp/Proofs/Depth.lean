/-
# Deeper evaluations

A bound on nested evaluations shows only when it is met. An evaluation that does
not end for being nested too deep goes the same way under every larger bound,
step for step: the same outcome, the same context, the same record
(`evaluate_eq_of_le`). So the evaluations of growing depth of an expression that
finishes at some depth are in the end all one run, which is what it comes to
(`Settles`, `settles_evaluate`). Mostly the outcome is all that matters about it, and
something about the context that it leaves (`Reaches`).

Key definitions: `Lasting`, `Settles`, `Reaches`.
Key theorems: `congruence_lasting`, `lasting_evaluate`, `evaluate_eq_of_le`,
`Settles.bind`, `Reaches.bind`, `Reaches.evaluate`.
-/
import Mathlib
import SpliceLisp.Proofs.Congruence

namespace SpliceLisp

open Eval

/-- Where the evaluation is not nested too deep, the others go just as it
does. -/
def Lasting : Relation Nat := fun _ V m m' =>
  ∀ c, (m c).outcome ≠ .error .tooDeep → (∀ k, m' k c = m c) ∧ ∀ a, (m c).outcome = .ok a → V a

theorem lasting_self {α : Type} {V : α → Prop} {m : Eval α}
    (hV : ∀ c a, (m c).outcome = .ok a → V a) : Lasting α V m fun _ => m :=
  fun c _ => ⟨fun _ => rfl, hV c⟩

theorem lasting_bind {α β : Type} {V : α → Prop} {W : β → Prop} {m : Eval α} {m' : Nat → Eval α}
    {f : α → Eval β} {f' : Nat → α → Eval β} (hm : Lasting α V m m')
    (hf : ∀ a, V a → Lasting β W (f a) fun k => f' k a) :
    Lasting β W (m >>= f) fun k => m' k >>= f' k := by
  intro c hfin
  have hfirst := hm c
  cases hrun : m c with
  | mk outcome d es =>
  rw [hrun] at hfirst
  cases outcome with
  | error s =>
    rw [bind_error hrun] at hfin ⊢
    obtain ⟨heq, -⟩ := hfirst fun h => hfin (congrArg Except.error (Except.error.inj h))
    exact ⟨fun k => bind_error (heq k), nofun⟩
  | ok a =>
    rw [bind_ok hrun] at hfin ⊢
    obtain ⟨heq, hV⟩ := hfirst nofun
    obtain ⟨heq2, hW⟩ := hf a (hV a rfl) d hfin
    refine ⟨fun k => (bind_ok (heq k)).trans ?_, hW⟩
    rw [show f' k a d = f a d from heq2 k]

/-- The steps of the language last. -/
theorem congruence_lasting : Congruence Domain.everything Lasting where
  pure hV := lasting_self fun _ _ ha => Except.ok.inj ha ▸ hV
  bind := lasting_bind
  fail _ := lasting_self nofun
  quit _ := lasting_self nofun
  tooDeep := lasting_self nofun
  invoked _ := lasting_self fun _ _ _ => trivial
  applied _ _ := lasting_self fun _ _ _ => trivial
  global? _ := lasting_self fun _ _ _ _ _ => Domain.fine_everything _
  bindGlobal _ _ _ := lasting_self fun _ _ _ => trivial

theorem lasting_round {V : Expr → Prop} {e : Expr} {m : Eval Expr} {m' : Nat → Eval Expr}
    (hV : ∀ v, V v) (hm : Lasting Expr V m m') :
    Lasting Expr V (round e m) fun k => round e (m' k) := by
  intro c hfin
  cases hget : c.cache.get? e.render with
  | some v =>
    exact ⟨fun k => (round_of_kept hget).trans (round_of_kept hget).symm, fun a _ => hV a⟩
  | none =>
    have hstep := hm c
    cases hrun : m c with
    | mk outcome d es =>
    rw [hrun] at hstep
    cases outcome with
    | ok v =>
      obtain ⟨heq, -⟩ := hstep nofun
      rw [round_of_ok hget hrun]
      exact ⟨fun k => round_of_ok hget (heq k), fun a _ => hV a⟩
    | error s =>
      rw [round_of_error hget hrun] at hfin ⊢
      obtain ⟨heq, -⟩ := hstep hfin
      exact ⟨fun k => round_of_error hget (heq k), nofun⟩

/-- An evaluation goes the same way with any room to spare. -/
theorem lasting_evaluate (depth : Nat) (e : Expr) :
    Lasting Expr (Domain.everything.Returns e) (evaluate depth e)
      fun k => evaluate (depth + k) e := by
  induction depth generalizing e with
  | zero => exact fun _ hfin => absurd rfl hfin
  | succ depth ih =>
    have hstep := congruence_lasting.dispatch (fun d _ => ih d) (e := e) trivial
    simp only [Nat.succ_add, evaluate_succ]
    exact lasting_round (Domain.returns_everything e) hstep

variable {c : Context} {m n : Nat}

/-- **A larger bound changes no run that ends within a smaller one.** -/
theorem evaluate_eq_of_le {e : Expr} (h : m ≤ n)
    (hfin : (evaluate m e c).outcome ≠ .error .tooDeep) : evaluate n e c = evaluate m e c := by
  obtain ⟨k, rfl⟩ := Nat.exists_eq_add_of_le h
  exact (lasting_evaluate m e c hfin).1 k

theorem evaluateEach_eq_of_le {es : List Expr} (h : m ≤ n)
    (hfin : (evaluateEach (evaluate m) es c).outcome ≠ .error .tooDeep) :
    evaluateEach (evaluate n) es c = evaluateEach (evaluate m) es c := by
  obtain ⟨k, rfl⟩ := Nat.exists_eq_add_of_le h
  have hgood : ∀ e ∈ es, Domain.everything.good e := fun _ _ => trivial
  have hlasting := congruence_lasting.evaluateEach (fun e _ => lasting_evaluate m e) hgood
  exact (hlasting c hfin).1 k

/-! ### What a growing depth comes to -/

/-- From some depth on, all are the run `r`. -/
def Settles {α : Type} (runs : Nat → Run α) (r : Run α) : Prop := ∃ N, ∀ k ≥ N, runs k = r

section Settling

variable {α β : Type}

theorem Settles.const (r : Run α) : Settles (fun _ => r) r := ⟨0, fun _ _ => rfl⟩

theorem Settles.unique {runs : Nat → Run α} {r s : Run α} (hr : Settles runs r)
    (hs : Settles runs s) : r = s := by
  obtain ⟨M, hM⟩ := hr
  obtain ⟨N, hN⟩ := hs
  exact (hM _ (le_max_left M N)).symm.trans (hN _ (le_max_right M N))

/-- One after the other, evaluations come to what the two come to. -/
theorem Settles.bind {m : Nat → Eval α} {f : Nat → α → Eval β} {a : α} {d : Context}
    {es : List Event} {r : Run β} (hm : Settles (fun k => m k c) ⟨.ok a, d, es⟩)
    (hf : Settles (fun k => f k a d) r) :
    Settles (fun k => (m k >>= f k) c) ⟨r.outcome, r.context, es ++ r.events⟩ := by
  obtain ⟨M, hM⟩ := hm
  obtain ⟨N, hN⟩ := hf
  refine ⟨max M N, fun k hk => (bind_ok (hM k (le_of_max_le_left hk))).trans ?_⟩
  rw [show f k a d = r from hN k (le_of_max_le_right hk)]

theorem Settles.bind_error {m : Nat → Eval α} {f : Nat → α → Eval β} {s : Stop} {d : Context}
    {es : List Event} (hm : Settles (fun k => m k c) ⟨.error s, d, es⟩) :
    Settles (fun k => (m k >>= f k) c) ⟨.error s, d, es⟩ :=
  hm.imp fun _ hM k hk => Eval.bind_error (hM k hk)

theorem settles_of_round {e : Expr} {r : Run Expr}
    (h : Settles (fun k => round e (dispatch (fun d => evaluate k d) e) c) r) :
    Settles (fun k => evaluate k e c) r := by
  obtain ⟨N, hN⟩ := h
  refine ⟨N + 1, fun k hk => ?_⟩
  cases k with
  | zero => omega
  | succ k => exact hN k (by omega)

/-- An evaluation that finishes is what the deeper ones come to. -/
theorem settles_evaluate {e : Expr} (hfin : (evaluate n e c).outcome ≠ .error .tooDeep) :
    Settles (fun k => evaluate k e c) (evaluate n e c) :=
  ⟨n, fun _ hk => evaluate_eq_of_le hk hfin⟩

theorem Settles.eq_evaluate {e : Expr} {r : Run Expr} (h : Settles (fun k => evaluate k e c) r)
    (hfin : (evaluate n e c).outcome ≠ .error .tooDeep) : evaluate n e c = r :=
  (settles_evaluate hfin).unique h

end Settling

/-- From `c` the evaluations of growing depth come to the outcome, and to a context
of which `P` is true. -/
def Reaches {α : Type} (c : Context) (m : Nat → Eval α) (o : Except Stop α)
    (P : Context → Prop) : Prop :=
  ∃ r, Settles (fun k => m k c) r ∧ r.outcome = o ∧ P r.context

namespace Reaches

variable {α β : Type} {m : Nat → Eval α} {o : Except Stop α} {P Q : Context → Prop}

theorem pure (hP : P c) (a : α) : Reaches c (fun _ => pure a) (.ok a) P :=
  ⟨_, .const _, rfl, hP⟩

theorem ofExcept (hP : P c) (x : Except Fault α) :
    Reaches c (fun _ => ofExcept x) (x.mapError .fault) P := by
  cases x with
  | ok a => exact .pure hP a
  | error f => exact ⟨_, .const _, rfl, hP⟩

theorem announce (hP : P c) (p : Procedure) : Reaches c (fun _ => p.announce) (.ok ()) P :=
  ⟨_, .const _, p.outcome_announce c, (p.context_announce c).symm ▸ hP⟩

theorem global? (hP : P c) (name : Text) :
    Reaches c (fun _ => Eval.global? name) (.ok (c.globals.get? name)) P :=
  ⟨_, .const _, rfl, hP⟩

theorem mono (h : Reaches c m o P) (hPQ : ∀ d, P d → Q d) : Reaches c m o Q := by
  obtain ⟨r, hr, ho, hP⟩ := h
  exact ⟨r, hr, ho, hPQ _ hP⟩

theorem unique {p : Except Stop α} (h : Reaches c m o P) (h' : Reaches c m p Q) : o = p := by
  obtain ⟨r, hr, rfl, -⟩ := h
  obtain ⟨s, hs, rfl, -⟩ := h'
  exact congrArg Run.outcome (hr.unique hs)

/-- What comes to a value goes on from there. -/
theorem bind {f : Nat → α → Eval β} {a : α} {o : Except Stop β} (hm : Reaches c m (.ok a) P)
    (hf : ∀ d, P d → Reaches d (fun k => f k a) o Q) : Reaches c (fun k => m k >>= f k) o Q := by
  obtain ⟨⟨_, d, es⟩, hr, rfl, hP⟩ := hm
  obtain ⟨s, hs, ho, hQ⟩ := hf d hP
  exact ⟨_, hr.bind hs, ho, hQ⟩

theorem of_singleton {a : α} (h : Reaches c (fun k => m k >>= fun b => Pure.pure [b]) (.ok [a]) P) :
    Reaches c m (.ok a) P := by
  obtain ⟨⟨_, d, es⟩, ⟨N, hN⟩, rfl, hP⟩ := h
  refine ⟨⟨.ok a, d, es⟩, ⟨N, fun k hk => ?_⟩, rfl, hP⟩
  have hrun := hN k hk
  dsimp only at hrun ⊢
  cases hm : m k c with
  | mk outcome b fs =>
  cases outcome with
  | error s =>
    rw [bind_error hm] at hrun
    cases hrun
  | ok b =>
    rw [bind_ok hm] at hrun
    cases hrun
    rw [pure_apply, List.append_nil]

/-- Where nothing is kept for it, an expression comes to what a step into it comes to,
and a value is kept. -/
theorem evaluate {e v : Expr} (hnone : c.cache.get? e.render = none)
    (h : Reaches c (fun k => dispatch (fun d => SpliceLisp.evaluate k d) e) (.ok v) P)
    (hkeep : ∀ d, P d → Q (d.remember e.render v)) :
    Reaches c (fun k => SpliceLisp.evaluate k e) (.ok v) Q := by
  obtain ⟨⟨_, d, es⟩, ⟨N, hN⟩, rfl, hP⟩ := h
  exact ⟨_, settles_of_round ⟨N, fun k hk => round_of_ok hnone (hN k hk)⟩, rfl, hkeep d hP⟩

theorem outcome_evaluate {e : Expr} {o : Except Stop Expr} (hnone : c.cache.get? e.render = none)
    (h : Reaches c (fun k => dispatch (fun d => SpliceLisp.evaluate k d) e) o P) :
    ∃ N, ∀ k ≥ N, (SpliceLisp.evaluate k e c).outcome = o := by
  obtain ⟨r, ⟨N, hN⟩, rfl, -⟩ := h
  refine ⟨N + 1, fun k hk => ?_⟩
  obtain ⟨k, rfl⟩ : ∃ j, k = j + 1 := ⟨k - 1, by omega⟩
  rw [SpliceLisp.outcome_evaluate hnone]
  exact congrArg Run.outcome (hN k (by omega))

theorem eventually (h : Reaches c m o P) :
    ∃ N, ∀ k ≥ N, (m k c).outcome = o ∧ P (m k c).context := by
  obtain ⟨r, ⟨N, hN⟩, ho, hP⟩ := h
  refine ⟨N, fun k hk => ?_⟩
  rw [show m k c = r from hN k hk]
  exact ⟨ho, hP⟩

end Reaches

end SpliceLisp
