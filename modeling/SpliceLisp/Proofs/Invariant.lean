/-
# Invariants of a session

A condition on contexts that each thing evaluation does to a context keeps, with
a condition on events that each of these then meets, is kept by evaluations, by
turns and by rows of turns, and every event on the way meets its condition
(`Invariant.evaluateText`, `Invariant.turn`, `Invariant.afterTurns`). Under any
invariant an evaluation stops only as the domain allows.

Key definitions: `Domain.MayStop`, `Invariant`, `Keeps`.
Key theorems: `Invariant.congruence`, `Invariant.round`, `Invariant.turn`,
`Invariant.afterTurns`.
-/
import Mathlib
import SpliceLisp.Proofs.Turns

namespace SpliceLisp

open Eval

/-- Whether some step into the expression ends with a value. -/
def Expr.Evaluable (e : Expr) : Prop :=
  ∃ (ev : Expr → Eval Expr) (c : Context) (v : Expr), (dispatch ev e c).outcome = .ok v

/-- How an evaluation may stop: for no undefined operation, and because the
session is asked to end only where `quit` is allowed. -/
def Domain.MayStop (D : Domain) : Stop → Prop
  | .fault _ | .tooDeep => True
  | .quit => D.allowed (.form .quit)
  | .undefined _ => False

/-- The contexts that satisfy `I` stay so whatever happens, and what happens
satisfies `E`. What may be met and what may be a value is up to the domain. -/
structure Invariant (D : Domain) (I : Context → Prop) (E : Event → Prop) : Prop where
  global : ∀ {c : Context} {name : Text} {v : Expr}, I c → c.globals.get? name = some v → D.Fine v
  kept : ∀ {c : Context} {e v : Expr}, I c → D.good e → c.cache.get? e.render = some v →
    D.Returns e v
  bind : ∀ {c : Context} {name : Text} {v : Expr}, I c → D.allowed (.form .binding) →
    D.good (.sym name) → D.Fine v → I (c.bind name v) ∧ E (.bound name v)
  remember : ∀ {c : Context} {e v : Expr}, I c → e.Evaluable → D.Returns e v →
    I (c.remember e.render v)
  entered : ∀ {c : Context} {e : Expr}, I c → D.good e → E (.entered e c)
  returned : ∀ {c : Context} {e v : Expr}, I c → D.Returns e v → E (.returned e v c)
  invoked : ∀ {p : Procedure} {route : Route}, D.Calls p route → E (.invoked p route)
  applied : ∀ (e : Expr) (source : Text), E (.applied e source)
  exhausted : E .exhausted
  endTurn : ∀ {c : Context}, I c → I c.endTurn

/-- From a context that satisfies `I` the evaluation leads to one that does, all
that happens satisfies `E`, it stops only as it may, and `V` is true of the
value. -/
def Keeps (D : Domain) (I : Context → Prop) (E : Event → Prop) : Relation Empty := fun _ V m _ =>
  ∀ c, I c → I (m c).context ∧ (∀ event ∈ (m c).events, E event) ∧
    (∀ s, (m c).outcome = .error s → D.MayStop s) ∧ ∀ a, (m c).outcome = .ok a → V a

namespace Invariant

variable {D : Domain} {I : Context → Prop} {E : Event → Prop} (h : Invariant D I E)

theorem keeps_bind {α β : Type} {V : α → Prop} {W : β → Prop} {m : Eval α} {m' : Empty → Eval α}
    {f : α → Eval β} {f' : Empty → α → Eval β} (hm : Keeps D I E α V m m')
    (hf : ∀ a, V a → Keeps D I E β W (f a) fun i => f' i a) :
    Keeps D I E β W (m >>= f) fun i => m' i >>= f' i := by
  intro c hc
  obtain ⟨hI, hE, hS, hV⟩ := hm c hc
  cases hrun : m c with
  | mk outcome d es =>
  rw [hrun] at hI hE hS hV
  cases outcome with
  | error s =>
    rw [bind_error hrun]
    exact ⟨hI, hE, fun t ht => hS t (congrArg Except.error (Except.error.inj ht)), nofun⟩
  | ok a =>
    rw [bind_ok hrun]
    obtain ⟨hI', hE', hrest⟩ := hf a (hV a rfl) d hI
    refine ⟨hI', fun event hevent => ?_, hrest⟩
    exact (List.mem_append.1 hevent).elim (hE event) (hE' event)

include h

/-- The steps of the language keep an invariant. -/
theorem congruence : Congruence D (Keeps D I E) where
  pure hV := fun _ hc => ⟨hc, by simp, nofun, fun _ ha => Except.ok.inj ha ▸ hV⟩
  bind := keeps_bind
  fail _ := fun _ hc => ⟨hc, by simp [fail, stop], fun _ hs => Except.error.inj hs ▸ trivial, nofun⟩
  quit hp := fun _ hc => ⟨hc, by simp, fun _ hs => Except.error.inj hs ▸ hp, nofun⟩
  tooDeep := fun _ hc => ⟨hc, by simpa [tooDeep] using h.exhausted,
    fun _ hs => Except.error.inj hs ▸ trivial, nofun⟩
  invoked hp := fun _ hc => ⟨hc, by simpa [note] using h.invoked hp, nofun, fun _ _ => trivial⟩
  applied e source := fun _ hc => ⟨hc, by simpa [note] using h.applied e source, nofun,
    fun _ _ => trivial⟩
  global? _ := fun _ hc => ⟨hc, by simp [global?], nofun, fun _ hb _ hv =>
    h.global hc ((Except.ok.inj hb).trans hv)⟩
  bindGlobal hp hname hv := fun _ hc => ⟨(h.bind hc hp hname hv).1,
    by simpa [bindGlobal] using (h.bind hc hp hname hv).2, nofun, fun _ _ => trivial⟩

/-- A round keeps an invariant if the step in it does. -/
theorem round {e : Expr} {ev : Expr → Eval Expr} {m' m'' : Empty → Eval Expr} (he : D.good e)
    (hm : Keeps D I E Expr (D.Returns e) (dispatch ev e) m') :
    Keeps D I E Expr (D.Returns e) (round e (dispatch ev e)) m'' := by
  intro c hc
  cases hget : c.cache.get? e.render with
  | some v =>
    have hv := h.kept hc he hget
    rw [round_of_kept hget]
    refine ⟨hc, ?_, nofun, fun a ha => Except.ok.inj ha ▸ hv⟩
    simpa using And.intro (h.entered hc he) (h.returned hc hv)
  | none =>
    obtain ⟨hI, hE, hS, hV⟩ := hm c hc
    generalize hrun : dispatch ev e c = run at hI hE hS hV
    obtain ⟨outcome, d, es⟩ := run
    cases outcome with
    | ok v =>
      have hv := hV v rfl
      have hd := h.remember hI ⟨ev, c, v, by rw [hrun]⟩ hv
      rw [round_of_ok hget hrun]
      refine ⟨hd, ?_, nofun, fun a ha => Except.ok.inj ha ▸ hv⟩
      simpa [or_imp, forall_and] using And.intro (h.entered hc he) (And.intro hE (h.returned hd hv))
    | error s =>
      rw [round_of_error hget hrun]
      exact ⟨hI, by simpa using And.intro (h.entered hc he) hE, hS, nofun⟩

/-- The evaluation of a text keeps an invariant. -/
theorem evaluateText (depth : Nat) (source : Text) {c : Context} (hc : I c) :
    I (evaluateText depth source c).context ∧
      (∀ event ∈ (SpliceLisp.evaluateText depth source c).events, E event) ∧
        (∀ s, (SpliceLisp.evaluateText depth source c).outcome = .error s → D.MayStop s) ∧
          ∀ v, (SpliceLisp.evaluateText depth source c).outcome = .ok v → D.Fine v :=
  h.congruence.evaluateText (fun _ _ _ he hm => h.round he hm) depth source c hc

/-- A turn keeps an invariant. -/
theorem turn (depth : Nat) (source : Text) {c : Context} (hc : I c) :
    I (turn depth source c).context ∧
      (∀ event ∈ (SpliceLisp.turn depth source c).events, E event) ∧
        (∀ s, (SpliceLisp.turn depth source c).outcome = .error s → D.MayStop s) ∧
          ∀ v, (SpliceLisp.turn depth source c).outcome = .ok v → D.Fine v :=
  ⟨h.endTurn (h.evaluateText depth source hc).1, (h.evaluateText depth source hc).2⟩

/-- A row of turns keeps an invariant. -/
theorem afterTurns (depth : Nat) : ∀ (sources : List Text) {c : Context}, I c →
    I (c.afterTurns depth sources)
  | [], _, hc => hc
  | source :: sources, _, hc => afterTurns depth sources (h.turn depth source hc).1

end Invariant

end SpliceLisp
