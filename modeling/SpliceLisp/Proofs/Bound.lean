/-
# The bound on nested evaluations

A bound on nested evaluations is met or it is not. If it is not, any larger one gives
the same run, of an expression as of a whole text. If it is met, anywhere, then that is
the last thing that happens, and the run ends for that reason and no other
(`bound_met_or_immaterial`).

That a run which does not end so goes the same way under a larger bound is
`evaluate_eq_of_le`. The other half is about every step of the language once more: no
step goes on after a part of it has stopped, and none stops for the bound without
meeting it (`Run.BoundLast`). In particular `cond` looks at the value of a test only
when there is one, so what it takes for false is a value and never the end of an
evaluation.

Key definition: `Run.BoundLast`.
Key theorems: `congruence_boundLasts`, `turn_eq_of_le`, `bound_met_or_immaterial`.
-/
import Mathlib
import SpliceLisp.Proofs.Depth
import SpliceLisp.Proofs.Turns

namespace SpliceLisp

open Eval

/-! ### A bound that is met -/

/-- The bound is not met, and the run does not end for it; or it is the last thing that
happens, once, and the run ends for it. -/
def Run.BoundLast {α : Type} (r : Run α) : Prop :=
  (.exhausted ∉ r.events ∧ r.outcome ≠ .error .tooDeep) ∨
    ∃ before, r.events = before ++ [.exhausted] ∧ .exhausted ∉ before ∧ r.outcome = .error .tooDeep

/-- In every context the bound comes last, if it is met, and `V` is true of the value. -/
def BoundLasts : Relation Empty := fun _ V m _ =>
  ∀ c, (m c).BoundLast ∧ ∀ a, (m c).outcome = .ok a → V a

theorem Run.BoundLast.mem_iff {α : Type} {r : Run α} (h : r.BoundLast) :
    .exhausted ∈ r.events ↔ r.outcome = .error .tooDeep := by
  rcases h with ⟨hevents, houtcome⟩ | ⟨before, hevents, -, houtcome⟩
  · exact iff_of_false hevents houtcome
  · exact iff_of_true (by simp [hevents]) houtcome

/-- More that happens before does not matter, unless it is the bound. -/
theorem Run.BoundLast.append {α : Type} {o : Except Stop α} {d : Context} {fs : List Event}
    (h : Run.BoundLast ⟨o, d, fs⟩) {es : List Event} (hes : .exhausted ∉ es) :
    Run.BoundLast ⟨o, d, es ++ fs⟩ := by
  rcases h with ⟨hevents, houtcome⟩ | ⟨before, hevents, hbefore, houtcome⟩
  · exact Or.inl ⟨by simpa [hes] using hevents, houtcome⟩
  · refine Or.inr ⟨es ++ before, ?_, by simpa [hes] using hbefore, houtcome⟩
    rw [show fs = before ++ [.exhausted] from hevents, List.append_assoc]

theorem Run.BoundLast.not_mem {α : Type} {a : α} {d : Context} {es : List Event}
    (h : Run.BoundLast ⟨.ok a, d, es⟩) : .exhausted ∉ es := fun hes => by
  cases h.mem_iff.1 hes

theorem Run.BoundLast.retype {α β : Type} {s : Stop} {d : Context} {es : List Event}
    (h : Run.BoundLast (α := α) ⟨.error s, d, es⟩) : Run.BoundLast (α := β) ⟨.error s, d, es⟩ := by
  rcases h with ⟨hevents, hs⟩ | ⟨before, hevents, hbefore, hs⟩
  · exact Or.inl ⟨hevents, fun h => hs (congrArg Except.error (Except.error.inj h))⟩
  · exact Or.inr ⟨before, hevents, hbefore, congrArg Except.error (Except.error.inj hs)⟩

theorem boundLasts_bind {α β : Type} {V : α → Prop} {W : β → Prop} {m : Eval α}
    {m' : Empty → Eval α} {f : α → Eval β} {f' : Empty → α → Eval β} (hm : BoundLasts α V m m')
    (hf : ∀ a, V a → BoundLasts β W (f a) fun i => f' i a) :
    BoundLasts β W (m >>= f) fun i => m' i >>= f' i := by
  intro c
  obtain ⟨hfirst, hV⟩ := hm c
  cases hrun : m c with
  | mk outcome d es =>
  rw [hrun] at hfirst hV
  cases outcome with
  | error s =>
    rw [bind_error hrun]
    exact ⟨hfirst.retype, nofun⟩
  | ok a =>
    obtain ⟨hthen, hW⟩ := hf a (hV a rfl) d
    rw [bind_ok hrun]
    exact ⟨hthen.append hfirst.not_mem, hW⟩

/-- A step at which nothing but the given things happen, without an end for the bound. -/
theorem boundLasts_of_events {α : Type} {V : α → Prop} {m : Eval α} {m' : Empty → Eval α}
    (hevents : ∀ c, .exhausted ∉ (m c).events) (houtcome : ∀ c, (m c).outcome ≠ .error .tooDeep)
    (hV : ∀ c a, (m c).outcome = .ok a → V a) : BoundLasts α V m m' :=
  fun c => ⟨Or.inl ⟨hevents c, houtcome c⟩, hV c⟩

/-- At no step of the language anything happens after the bound is met. -/
theorem congruence_boundLasts : Congruence Domain.everything BoundLasts where
  pure hV := boundLasts_of_events (by simp) (by simp) fun _ _ h => Except.ok.inj h ▸ hV
  bind := boundLasts_bind
  fail _ := boundLasts_of_events (by simp [fail]) (by simp [fail]) nofun
  quit _ := boundLasts_of_events (by simp) (by simp) nofun
  tooDeep := fun _ => ⟨Or.inr ⟨[], rfl, List.not_mem_nil, rfl⟩, nofun⟩
  invoked _ := boundLasts_of_events (by simp [note]) (by simp [note]) fun _ _ _ => trivial
  applied _ _ := boundLasts_of_events (by simp [note]) (by simp [note]) fun _ _ _ => trivial
  global? _ := boundLasts_of_events (by simp [Eval.global?]) (by simp [Eval.global?])
    fun _ _ _ _ _ => Domain.fine_everything _
  bindGlobal _ _ _ := boundLasts_of_events (by simp [Eval.bindGlobal]) (by simp [Eval.bindGlobal])
    fun _ _ _ => trivial

theorem boundLasts_round {V : Expr → Prop} {e : Expr} {m : Eval Expr} {m' m'' : Empty → Eval Expr}
    (hV : ∀ v, V v) (hm : BoundLasts Expr V m m') : BoundLasts Expr V (round e m) m'' := by
  refine fun c => ⟨?_, fun v _ => hV v⟩
  cases hget : c.cache.get? e.render with
  | some v =>
    rw [round_of_kept hget]
    exact Or.inl ⟨by simp, nofun⟩
  | none =>
    obtain ⟨hstep, -⟩ := hm c
    cases hrun : m c with
    | mk outcome d es =>
    rw [hrun] at hstep
    cases outcome with
    | ok v =>
      rw [round_of_ok hget hrun]
      exact Or.inl ⟨by simpa using hstep.not_mem, nofun⟩
    | error s =>
      rw [round_of_error hget hrun]
      have hentered : Event.exhausted ∉ [Event.entered e c] := by simp
      exact hstep.append hentered

theorem boundLasts_evaluateText (depth : Nat) (source : Text) :
    BoundLasts Expr Domain.everything.Fine (evaluateText depth source)
      fun _ => evaluateText depth source :=
  congruence_boundLasts.evaluateText
    (fun e _ _ _ hm => boundLasts_round (Domain.returns_everything e) hm) depth source

theorem boundLast_evaluate (depth : Nat) (e : Expr) (c : Context) :
    (evaluate depth e c).BoundLast :=
  (congruence_boundLasts.evaluate
    (fun e _ _ _ hm => boundLasts_round (Domain.returns_everything e) hm) depth e trivial c).1

theorem boundLast_turn (depth : Nat) (source : Text) (c : Context) :
    (turn depth source c).BoundLast :=
  (boundLasts_evaluateText depth source c).1

/-! ### A bound that is not met -/

theorem lasting_evaluateInOrder (depth : Nat) : ∀ (es : List Expr) (last : Expr),
    Lasting Expr Domain.everything.Fine (evaluateInOrder depth last es)
      fun k => evaluateInOrder (depth + k) last es
  | [], last => congruence_lasting.pure (Domain.fine_everything last)
  | e :: es, _ => congruence_lasting.bind (lasting_evaluate depth e) fun v _ =>
      lasting_evaluateInOrder depth es v

theorem lasting_evaluateText (depth : Nat) (source : Text) :
    Lasting Expr Domain.everything.Fine (evaluateText depth source)
      fun k => evaluateText (depth + k) source := by
  simp only [evaluateText]
  split
  · exact congruence_lasting.fail _
  · exact lasting_evaluateInOrder depth _ .nil

/-- A larger bound changes no turn that ends within a smaller one. -/
theorem turn_eq_of_le {m n : Nat} (h : m ≤ n) {source : Text} {c : Context}
    (hfin : (turn m source c).outcome ≠ .error .tooDeep) : turn n source c = turn m source c := by
  obtain ⟨k, rfl⟩ := Nat.exists_eq_add_of_le h
  have hsame : evaluateText (m + k) source c = evaluateText m source c :=
    (lasting_evaluateText m source c hfin).1 k
  simp only [turn, hsame]

/-- **The bound on nested evaluations is met, and then that is the end, or it does not
matter.** If the evaluation of an expression does not end for being nested too deep, the
run is the same under every larger bound: outcome, globals, kept values and record. If
the bound is met anywhere in it, that is the last thing that happens, and the run ends
for it; and no run ends for it that has not met it. Both are true of a turn too, and
then the session says what has happened. -/
theorem bound_met_or_immaterial (e : Expr) (source : Text) (c : Context) :
    (∀ m n, m ≤ n → (evaluate m e c).outcome ≠ .error .tooDeep → evaluate n e c = evaluate m e c) ∧
    (∀ m n, m ≤ n → (turn m source c).outcome ≠ .error .tooDeep →
      turn n source c = turn m source c) ∧
    (∀ n, (evaluate n e c).BoundLast) ∧ (∀ n, (turn n source c).BoundLast) ∧
    (∀ n, .exhausted ∈ (turn n source c).events →
      (answer c source n).reply = some ("error: maximum recursion depth exceeded." : Text)) := by
  refine ⟨fun m n h => evaluate_eq_of_le h, fun m n h => turn_eq_of_le h,
    fun n => boundLast_evaluate n e c, fun n => boundLast_turn n source c, fun n h => ?_⟩
  have houtcome := (boundLast_turn n source c).mem_iff.1 h
  simp only [answer, houtcome, reply]

/-- A test that leads back to itself meets any bound, and `cond` does not go on to its
other clause. Without such a test four nested evaluations suffice. -/
theorem bound_met_or_immaterial_test :
    let c := Context.startup.bind "f" (.list [.sym "f", .num "1"])
    let wound : Expr := .list [.sym "cond", .list [.sym "f", .num "1"], .list [.yes, .num "2"]]
    let plain : Expr := .list [.sym "cond", .list [.no, .sym "f"], .list [.yes, .num "2"]]
    ((evaluate 9 wound c).outcome = .error .tooDeep ∧
      ∃ before, (evaluate 9 wound c).events = before ++ [.exhausted]) ∧
    (evaluate 4 plain c).outcome = .ok (.num "2") ∧ evaluate 100 plain c = evaluate 4 plain c := by
  intro c wound plain
  have hwound : (evaluate 9 wound c).outcome = .error .tooDeep := by decide +kernel
  have hplain : (evaluate 4 plain c).outcome = .ok (.num "2") := by decide +kernel
  obtain ⟨-, -, hlast, -, -⟩ := bound_met_or_immaterial wound [] c
  obtain ⟨hsame, -⟩ := bound_met_or_immaterial plain [] c
  refine ⟨⟨hwound, ?_⟩, hplain, hsame 4 100 (by decide) (by rw [hplain]; nofun)⟩
  rcases hlast 9 with ⟨-, hnot⟩ | ⟨before, hevents, -, -⟩
  · exact absurd hwound hnot
  · exact ⟨before, hevents⟩

end SpliceLisp
