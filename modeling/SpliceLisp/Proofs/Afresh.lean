/-
# Finishing with and without the cache

Where the texts tell apart what gets a value and no global is bound, keeping
values changes no outcome that both evaluators reach. Here it is shown that they
reach it together. What is found need not be worked out, so the evaluator with
the cache finishes at any depth at which the other does; and what it finds has
been worked out before, so the other finishes too, if it may go deep enough
(`matches_evaluate`). So what an expression comes to can be found out without
the cache, where nothing that is evaluated depends on what was evaluated before
(`comes_of_evaluate`, `evaluate_of_comes`).

The invariant is once more that each kept value is the value of an expression
with that text, where now evaluating afresh does come to it.

Key definitions: `Comes`, `Quiet`, `Matches`.
Key theorems: `Comes.bind_iff`, `congruence_matches`, `matches_evaluate`,
`comes_of_evaluate`, `evaluate_of_comes`.
-/
import Mathlib
import SpliceLisp.Proofs.Cache
import SpliceLisp.Proofs.Depth

namespace SpliceLisp

open Eval

/-! ### Evaluating afresh at growing depth -/

theorem lasting_evaluateAfresh (depth : Nat) (e : Expr) :
    Lasting Expr (Domain.everything.Returns e) (evaluateAfresh depth e)
      fun k => evaluateAfresh (depth + k) e := by
  induction depth generalizing e with
  | zero => exact fun _ hfin => absurd rfl hfin
  | succ depth ih =>
    have hstep := congruence_lasting.dispatch (fun d _ => ih d) (e := e) trivial
    simp only [Nat.succ_add, evaluateAfresh]
    refine lasting_bind (V := fun _ => True) (lasting_self fun _ _ _ => trivial) fun _ _ => ?_
    refine lasting_bind hstep fun v hv => ?_
    exact lasting_bind (V := fun _ => True) (lasting_self fun _ _ _ => trivial) fun _ _ =>
      lasting_self fun _ _ ha => Except.ok.inj ha ▸ hv

section Afresh

variable {c : Context} {e : Expr} {m n : Nat}

theorem evaluateAfresh_eq_of_le (h : m ≤ n)
    (hfin : (evaluateAfresh m e c).outcome ≠ .error .tooDeep) :
    evaluateAfresh n e c = evaluateAfresh m e c := by
  obtain ⟨k, rfl⟩ := Nat.exists_eq_add_of_le h
  exact (lasting_evaluateAfresh m e c hfin).1 k

theorem evaluateAfresh_succ (depth : Nat) :
    (evaluateAfresh (depth + 1) e c).outcome =
        (dispatch (fun e => evaluateAfresh depth e) e c).outcome ∧
      (evaluateAfresh (depth + 1) e c).context =
        (dispatch (fun e => evaluateAfresh depth e) e c).context := by
  have hentered : note (.entered e) c = ⟨.ok (), c, [.entered e c]⟩ := rfl
  rw [evaluateAfresh, bind_ok hentered]
  cases hrun : dispatch (fun e => evaluateAfresh depth e) e c with
  | mk outcome d es =>
  cases outcome with
  | error s =>
    rw [bind_error hrun]
    exact ⟨rfl, rfl⟩
  | ok v =>
    rw [bind_ok hrun]
    exact ⟨rfl, rfl⟩

end Afresh

/-! ### What evaluations come to in one context -/

/-- From some depth on the evaluation ends like this, and leaves the context as
it is. -/
def Comes {α : Type} (c : Context) (m : Nat → Eval α) (r : Except Stop α) : Prop :=
  ∃ N, ∀ k ≥ N, (m k c).outcome = r ∧ (m k c).context = c

section Coming

variable {α β : Type} {c : Context}

theorem Comes.pure (a : α) : Comes c (fun _ => pure a) (.ok a) := ⟨0, fun _ _ => ⟨rfl, rfl⟩⟩

theorem Comes.note (event : Context → Event) : Comes c (fun _ => note event) (.ok ()) :=
  ⟨0, fun _ _ => ⟨rfl, rfl⟩⟩

theorem Comes.announce (p : Procedure) : Comes c (fun _ => p.announce) (.ok ()) :=
  ⟨0, fun _ _ => ⟨p.outcome_announce c, p.context_announce c⟩⟩

theorem Comes.global {name : Text} {v : Expr} (h : c.globals.get? name = some v) :
    Comes c (fun _ => global? name) (.ok (some v)) :=
  ⟨0, fun _ _ => ⟨congrArg Except.ok h, rfl⟩⟩

theorem Comes.unique {m : Nat → Eval α} {r s : Except Stop α} (hr : Comes c m r)
    (hs : Comes c m s) : r = s := by
  obtain ⟨M, hM⟩ := hr
  obtain ⟨N, hN⟩ := hs
  exact (hM _ (le_max_left M N)).1.symm.trans (hN _ (le_max_right M N)).1

/-- After a value, all depends on what follows. -/
theorem Comes.bind_iff {m : Nat → Eval α} {f : Nat → α → Eval β} {a : α} {r : Except Stop β}
    (hm : Comes c m (.ok a)) :
    Comes c (fun k => m k >>= f k) r ↔ Comes c (fun k => f k a) r := by
  obtain ⟨M, hM⟩ := hm
  have hsame : ∀ k ≥ M, ((m k >>= f k) c).outcome = (f k a c).outcome ∧
      ((m k >>= f k) c).context = (f k a c).context := by
    intro k hk
    obtain ⟨ho, hd⟩ := hM k hk
    rw [bind_apply, ho, hd]
    exact ⟨rfl, rfl⟩
  constructor
  · rintro ⟨N, hN⟩
    refine ⟨max M N, fun k hk => ?_⟩
    obtain ⟨ho, hd⟩ := hsame k (le_of_max_le_left hk)
    exact ho ▸ hd ▸ hN k (le_of_max_le_right hk)
  · rintro ⟨N, hN⟩
    refine ⟨max M N, fun k hk => ?_⟩
    obtain ⟨ho, hd⟩ := hsame k (le_of_max_le_left hk)
    exact ho.symm ▸ hd.symm ▸ hN k (le_of_max_le_right hk)

theorem Comes.bind_error {m : Nat → Eval α} {f : Nat → α → Eval β} {s : Stop}
    (hm : Comes c m (.error s)) : Comes c (fun k => m k >>= f k) (.error s) := by
  obtain ⟨M, hM⟩ := hm
  refine ⟨M, fun k hk => ?_⟩
  obtain ⟨ho, hd⟩ := hM k hk
  dsimp only
  rw [bind_apply, ho, hd]
  exact ⟨rfl, rfl⟩

theorem Comes.exists_finished {m : Nat → Eval α} {f : Nat → α → Eval β} {r : Except Stop β}
    (h : Comes c (fun k => m k >>= f k) r) (hr : r ≠ .error .tooDeep) :
    ∃ n, (m n c).outcome ≠ .error .tooDeep := by
  obtain ⟨N, hN⟩ := h
  refine ⟨N, fun hdeep => hr ?_⟩
  have ho : ((m N >>= f N) c).outcome = r := (hN N le_rfl).1
  rw [← ho, bind_apply, hdeep]

theorem comes_evaluateAfresh_iff {e : Expr} {r : Except Stop Expr} :
    Comes c (fun k => evaluateAfresh k e) r ↔
      Comes c (fun k => dispatch (fun e => evaluateAfresh k e) e) r := by
  constructor
  · rintro ⟨N, hN⟩
    refine ⟨N, fun k hk => ?_⟩
    obtain ⟨ho, hd⟩ := evaluateAfresh_succ (c := c) (e := e) k
    rw [← ho, ← hd]
    exact hN (k + 1) (by omega)
  · rintro ⟨N, hN⟩
    refine ⟨N + 1, fun k hk => ?_⟩
    obtain ⟨j, rfl⟩ : ∃ j, k = j + 1 := ⟨k - 1, by omega⟩
    obtain ⟨ho, hd⟩ := evaluateAfresh_succ (c := c) (e := e) j
    dsimp only
    rw [ho, hd]
    exact hN j (by omega)

/-- At any depth at which it finishes, an evaluation afresh ends as it does in
the end. -/
theorem Comes.eq_evaluateAfresh {e : Expr} {r : Except Stop Expr} {n : Nat}
    (h : Comes c (fun k => evaluateAfresh k e) r)
    (hfin : (evaluateAfresh n e c).outcome ≠ .error .tooDeep) :
    (evaluateAfresh n e c).outcome = r ∧ (evaluateAfresh n e c).context = c := by
  obtain ⟨N, hN⟩ := h
  rw [← evaluateAfresh_eq_of_le (le_max_left n N) hfin]
  exact hN _ (le_max_right n N)

theorem comes_meant_iff {e : Expr} {r : Except Stop Expr} :
    Comes c (fun k => evaluateAfresh k e.meant) r ↔ Comes c (fun k => evaluateAfresh k e) r := by
  cases e with
  | quote t =>
    cases hread : Expr.read t with
    | ok u =>
      rw [comes_evaluateAfresh_iff (e := .quote t)]
      simp only [Expr.meant, hread, dispatch_quote hread]
    | error f => simp only [Expr.meant, hread]
  | _ => rfl

end Coming

/-! ### Both evaluators -/

/-- Each kept value is what evaluating afresh comes to for what one of the
expressions `es` is about, whose text it is kept under. The bindings are those
of `c`. -/
structure KeptAfresh (c : Context) (es : List Expr) (d : Context) : Prop where
  globals : d.globals = c.globals
  cache : ∀ t v, d.cache.get? t = some v →
    ∃ e ∈ es, e.render = t ∧ Comes c (fun k => evaluateAfresh k e.meant) (.ok v)

/-- The run binds no global and gives values to some of the expressions `es`
only. -/
structure Quiet {α : Type} (es : List Expr) (r : Run α) : Prop where
  unbound : r.boundNames = []
  valued : ∀ e ∈ r.valued, e ∈ es

/-- From a context with nothing wrong kept: if the evaluation finishes, it keeps
nothing wrong, and the others come to its outcome; and it finishes if that of
them does whose depth is `n`. -/
def Matches (c : Context) (es : List Expr) (n : Nat) : Relation Nat := fun _ V m m' =>
  ∀ d, KeptAfresh c es d → Quiet es (m d) →
    ((m d).outcome ≠ .error .tooDeep → KeptAfresh c es (m d).context ∧
      (∀ a, (m d).outcome = .ok a → V a) ∧ Comes c m' (m d).outcome) ∧
    ((m' n c).outcome ≠ .error .tooDeep →
      (m' n c).outcome = (m d).outcome ∧ (m' n c).context = c)

section Matching

variable {c : Context} {es : List Expr} {n : Nat}

section Parts

variable {α β : Type} {o : Except Stop β} {d : Context} {vs ws : List Event}

theorem Quiet.parts (h : Quiet es (⟨o, d, vs ++ ws⟩ : Run β)) :
    (∀ (p : Except Stop α) (b : Context), Quiet es ⟨p, b, vs⟩) ∧ Quiet es (⟨o, d, ws⟩ : Run β) := by
  have hbound := h.unbound
  have hvalued := h.valued
  simp only [Run.boundNames, Run.valued, List.filterMap_append, List.append_eq_nil_iff,
    List.mem_append] at hbound hvalued
  exact ⟨fun p b => ⟨hbound.1, fun e he => hvalued e (Or.inl he)⟩,
    ⟨hbound.2, fun e he => hvalued e (Or.inr he)⟩⟩

theorem Quiet.tail {event : Event} (h : Quiet es (⟨o, d, event :: vs⟩ : Run β)) :
    Quiet es (⟨o, d, vs⟩ : Run β) :=
  (parts (α := Unit) (show Quiet es (⟨o, d, [event] ++ vs⟩ : Run β) from h)).2

end Parts

theorem KeptAfresh.remember {d : Context} (hd : KeptAfresh c es d) {e v : Expr} (he : e ∈ es)
    (hv : Comes c (fun k => evaluateAfresh k e) (.ok v)) :
    KeptAfresh c es (d.remember e.render v) :=
  ⟨hd.globals, forall_kept_remember hd.cache ⟨e, he, rfl, comes_meant_iff.2 hv⟩⟩

theorem matches_of_silent {α : Type} {V : α → Prop} {m : Eval α}
    (hcontext : ∀ d, (m d).context = d) (hV : ∀ d a, (m d).outcome = .ok a → V a)
    (hsame : ∀ d : Context, d.globals = c.globals → (m c).outcome = (m d).outcome) :
    Matches c es n α V m fun _ => m :=
  fun d hd _ => ⟨fun _ => ⟨(hcontext d).symm ▸ hd, hV d, 0, fun _ _ =>
    ⟨hsame d hd.globals, hcontext c⟩⟩, fun _ => ⟨hsame d hd.globals, hcontext c⟩⟩

theorem matches_bind {α β : Type} {V : α → Prop} {W : β → Prop} {m : Eval α} {m' : Nat → Eval α}
    {f : α → Eval β} {f' : Nat → α → Eval β} (hm : Matches c es n α V m m')
    (hf : ∀ a, V a → Matches c es n β W (f a) fun k => f' k a) :
    Matches c es n β W (m >>= f) fun k => m' k >>= f' k := by
  intro d hd hq
  have hdeep : (m' n c).outcome = .error .tooDeep →
      ((m' n >>= f' n) c).outcome = .error .tooDeep := fun h => by rw [bind_apply, h]
  cases hrun : m d with
  | mk outcome d1 vs =>
  have hfirst := hm d hd
  rw [hrun] at hfirst
  cases outcome with
  | error s =>
    rw [bind_error hrun] at hq ⊢
    obtain ⟨hforth, hback⟩ := hfirst ⟨hq.unbound, hq.valued⟩
    refine ⟨fun hfin => ?_, fun hfin => ?_⟩
    · obtain ⟨hkept, -, hcomes⟩ := hforth fun h => hfin (congrArg Except.error (Except.error.inj h))
      exact ⟨hkept, nofun, hcomes.bind_error⟩
    · obtain ⟨ho, hd1⟩ := hback fun h => hfin (hdeep h)
      dsimp only
      rw [bind_apply, ho, hd1]
      exact ⟨rfl, rfl⟩
  | ok a =>
    rw [bind_ok hrun] at hq ⊢
    obtain ⟨hq1, hq2⟩ := hq.parts
    obtain ⟨hforth, hback⟩ := hfirst (hq1 _ _)
    obtain ⟨hkept, hV, hcomes⟩ := hforth nofun
    obtain ⟨hforth2, hback2⟩ := hf a (hV a rfl) d1 hkept hq2
    refine ⟨fun hfin => ?_, fun hfin => ?_⟩
    · obtain ⟨hkept2, hW, hcomes2⟩ := hforth2 hfin
      exact ⟨hkept2, hW, hcomes.bind_iff.2 hcomes2⟩
    · obtain ⟨ho, hd1⟩ := hback fun h => hfin (hdeep h)
      dsimp only at hfin ⊢
      rw [bind_apply, ho, hd1] at hfin ⊢
      exact hback2 hfin

/-- The steps of the language match. -/
theorem congruence_matches : Congruence Domain.everything (Matches c es n) where
  pure hV := matches_of_silent (fun _ => rfl) (fun _ _ h => Except.ok.inj h ▸ hV) fun _ _ => rfl
  bind := matches_bind
  fail _ := matches_of_silent (fun _ => rfl) nofun fun _ _ => rfl
  quit _ := matches_of_silent (fun _ => rfl) nofun fun _ _ => rfl
  tooDeep := fun _ _ _ => ⟨fun hfin => absurd rfl hfin, fun hfin => absurd rfl hfin⟩
  invoked _ := matches_of_silent (fun _ => rfl) (fun _ _ _ => trivial) fun _ _ => rfl
  applied _ _ := matches_of_silent (fun _ => rfl) (fun _ _ _ => trivial) fun _ _ => rfl
  global? name := matches_of_silent (fun _ => rfl) (fun _ _ _ _ _ => Domain.fine_everything _)
    fun _ h => congrArg (fun t : Table => Except.ok (t.get? name)) h.symm
  bindGlobal _ _ _ := fun _ _ hq => by cases hq.unbound

/-- **Both evaluators finish, or neither does**, and they have the same outcome,
if the texts tell apart what gets a value and no global is bound. -/
theorem matches_evaluate (hes : Unambiguous es) (n : Nat) (e : Expr) :
    Matches c es n Expr (Domain.everything.Returns e) (evaluate n e)
      fun k => evaluateAfresh k e := by
  induction n generalizing e with
  | zero => exact fun _ _ _ => ⟨fun hfin => absurd rfl hfin, fun hfin => absurd rfl hfin⟩
  | succ n ih =>
    have hstep := congruence_matches.dispatch (fun d _ => ih d) (e := e) trivial
    intro d hd hq
    cases hget : d.cache.get? e.render with
    | some v =>
      -- What is found belongs to an expression that is about the same.
      rw [evaluate_of_kept hget] at hq ⊢
      obtain ⟨f, hf, htext, hvalue⟩ := hd.cache _ _ hget
      have he : e ∈ es := hq.valued e (by simp [Run.valued])
      have hcomes : Comes c (fun k => evaluateAfresh k e) (.ok v) := by
        rw [← comes_meant_iff, hes e he f hf htext.symm]
        exact hvalue
      exact ⟨fun _ => ⟨hd, fun a _ => Domain.returns_everything e a, hcomes⟩,
        hcomes.eq_evaluateAfresh⟩
    | none =>
      obtain ⟨hfresh, hfreshd⟩ := evaluateAfresh_succ (c := c) (e := e) n
      cases hrun : dispatch (fun e => evaluate n e) e d with
      | mk outcome d1 vs =>
      have hparts := hstep d hd
      rw [hrun] at hparts
      cases outcome with
      | error s =>
        rw [evaluate_of_error hget hrun] at hq ⊢
        obtain ⟨hforth, hback⟩ := hparts hq.tail
        refine ⟨fun hfin => ?_, fun hfin => ?_⟩
        · obtain ⟨hkept, -, hcomes⟩ := hforth hfin
          refine ⟨hkept, fun a ha => ?_, comes_evaluateAfresh_iff.2 hcomes⟩
          cases ha
        · dsimp only at hfin ⊢
          rw [hfresh] at hfin
          rw [hfresh, hfreshd]
          exact hback hfin
      | ok v =>
        rw [evaluate_of_ok hget hrun] at hq ⊢
        obtain ⟨hforth, hback⟩ := hparts (hq.tail.parts.1 _ _)
        have he : e ∈ es := hq.valued e (by simp [Run.valued])
        refine ⟨fun _ => ?_, fun hfin => ?_⟩
        · obtain ⟨hkept, -, hcomes⟩ := hforth fun hdeep => by cases hdeep
          have hvalue := comes_evaluateAfresh_iff.2 hcomes
          exact ⟨hkept.remember he hvalue, fun a _ => Domain.returns_everything e a, hvalue⟩
        · dsimp only at hfin ⊢
          rw [hfresh] at hfin
          rw [hfresh, hfreshd]
          exact hback hfin

end Matching

section Between

variable {c : Context} (hcache : c.cache = ∅) {e : Expr}
include hcache

/-- An expression that finishes between turns comes to that outcome without the
cache. -/
theorem comes_of_evaluate {n : Nat} (hunbound : (evaluate n e c).boundNames = [])
    (htell : Unambiguous (evaluate n e c).valued)
    (hfin : (evaluate n e c).outcome ≠ .error .tooDeep) :
    Comes c (fun k => evaluateAfresh k e) (evaluate n e c).outcome := by
  have hkept : KeptAfresh c (evaluate n e c).valued c :=
    ⟨rfl, fun t v hv => by rw [hcache] at hv; cases hv⟩
  exact ((matches_evaluate htell n e c hkept ⟨hunbound, fun _ h => h⟩).1 hfin).2.2

/-- An expression that finishes without the cache finishes with it at the same
depth, and has the same outcome. -/
theorem evaluate_of_evaluateAfresh {n : Nat} (hunbound : (evaluate n e c).boundNames = [])
    (htell : Unambiguous (evaluate n e c).valued)
    (hfin : (evaluateAfresh n e c).outcome ≠ .error .tooDeep) :
    (evaluate n e c).outcome = (evaluateAfresh n e c).outcome := by
  have hkept : KeptAfresh c (evaluate n e c).valued c :=
    ⟨rfl, fun t v hv => by rw [hcache] at hv; cases hv⟩
  exact ((matches_evaluate htell n e c hkept ⟨hunbound, fun _ h => h⟩).2 hfin).1.symm

/-- What an expression comes to without the cache is what it comes to with it. -/
theorem evaluate_of_comes (hunbound : ∀ n, (evaluate n e c).boundNames = [])
    (htell : ∀ n, Unambiguous (evaluate n e c).valued) {r : Except Stop Expr}
    (h : Comes c (fun k => evaluateAfresh k e) r) (hr : r ≠ .error .tooDeep) :
    ∃ N, ∀ k ≥ N, (evaluate k e c).outcome = r := by
  obtain ⟨N, hN⟩ := h
  have ho : (evaluateAfresh N e c).outcome = r := (hN N le_rfl).1
  have hfirst : (evaluate N e c).outcome = r :=
    (evaluate_of_evaluateAfresh hcache (hunbound N) (htell N) (ho ▸ hr)).trans ho
  exact ⟨N, fun k hk => by rw [evaluate_eq_of_le hk (hfirst ▸ hr), hfirst]⟩

end Between

end SpliceLisp
