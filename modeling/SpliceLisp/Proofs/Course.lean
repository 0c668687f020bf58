/-
# The course of a run

Whatever an expression is and however its evaluation ends, a run is made up of few
things. A name is bound. A call goes on record, which changes nothing. An evaluation begins
and finds its value kept; or it begins with nothing kept and either comes to a value,
which is then kept, or is broken off. One of these follows the other. That is all
that can happen, and it is the subject of `Course`, which relates the context before,
the record and the context afterwards.

What a record says about a run is shown by induction on its course, without another
look at the steps of the language.

Key definition: `Course`.
Key theorems: `congruence_courses`, `course_evaluate`, `course_evaluateText`.
-/
import Mathlib
import SpliceLisp.Proofs.Turns

namespace SpliceLisp

open Eval

/-- The events lead from one context to another. The flag says whether the run has a
value or is broken off. A value is found, or none is found and the one that the
expression has is computed and kept, unless the run is broken off before. -/
inductive Course : Context → List Event → Bool → Context → Prop
  | nothing {c : Context} : Course c [] true c
  | cut {c : Context} : Course c [] false c
  | invoked {c : Context} {p : Procedure} {route : Route} : Course c [.invoked p route] true c
  | applied {c : Context} {e : Expr} {source : Text} : Course c [.applied e source] true c
  | exhausted {c : Context} : Course c [.exhausted] false c
  | bound {c : Context} {name : Text} {v : Expr} : Course c [.bound name v] true (c.bind name v)
  | found {c : Context} {e v : Expr} : c.cache.get? e.render = some v →
      Course c [.entered e c, .returned e v c] true c
  | computed {c d : Context} {e v : Expr} {es : List Event} {depth : Nat} :
      c.cache.get? e.render = none → (evaluate depth e c).outcome = .ok v → Course c es true d →
      Course c (.entered e c :: (es ++ [.returned e v (d.remember e.render v)])) true
        (d.remember e.render v)
  | broken {c d : Context} {e : Expr} {es : List Event} : c.cache.get? e.render = none →
      Course c es false d → Course c (.entered e c :: es) false d
  | append {b c d : Context} {es fs : List Event} {o : Bool} : Course b es true c →
      Course c fs o d → Course b (es ++ fs) o d

/-- The run has a course, and `V` is true of its value. -/
def Courses : Relation Empty := fun _ V m _ =>
  ∀ c, Course c (m c).events (m c).outcome.isOk (m c).context ∧
    ∀ a, (m c).outcome = .ok a → V a

theorem courses_bind {α β : Type} {V : α → Prop} {W : β → Prop} {m : Eval α}
    {m' : Empty → Eval α} {f : α → Eval β} {f' : Empty → α → Eval β} (hm : Courses α V m m')
    (hf : ∀ a, V a → Courses β W (f a) fun i => f' i a) :
    Courses β W (m >>= f) fun i => m' i >>= f' i := by
  intro c
  have hfirst := hm c
  cases hrun : m c with
  | mk outcome d es =>
  rw [hrun] at hfirst
  cases outcome with
  | error s =>
    rw [bind_error hrun]
    exact ⟨hfirst.1, nofun⟩
  | ok a =>
    rw [bind_ok hrun]
    obtain ⟨hthen, hW⟩ := hf a (hfirst.2 a rfl) d
    exact ⟨.append hfirst.1 hthen, hW⟩

/-- The steps of the language have a course. -/
theorem congruence_courses : Congruence Domain.everything Courses where
  pure hV := fun _ => ⟨.nothing, fun _ h => Except.ok.inj h ▸ hV⟩
  bind := courses_bind
  fail _ := fun _ => ⟨.cut, nofun⟩
  quit _ := fun _ => ⟨.cut, nofun⟩
  tooDeep := fun _ => ⟨.exhausted, nofun⟩
  invoked _ := fun _ => ⟨.invoked, fun _ _ => trivial⟩
  applied _ _ := fun _ => ⟨.applied, fun _ _ => trivial⟩
  global? _ := fun _ => ⟨.nothing, fun _ _ _ _ => Domain.fine_everything _⟩
  bindGlobal _ _ _ := fun _ => ⟨.bound, fun _ _ => trivial⟩

theorem courses_evaluate (depth : Nat) (e : Expr) :
    Courses Expr (Domain.everything.Returns e) (evaluate depth e) fun _ => evaluate depth e := by
  induction depth generalizing e with
  | zero => exact congruence_courses.tooDeep
  | succ depth ih =>
    intro c
    refine ⟨?_, fun v _ => Domain.returns_everything e v⟩
    cases hget : c.cache.get? e.render with
    | some v =>
      rw [evaluate_of_kept hget]
      exact .found hget
    | none =>
      have hstep := (congruence_courses.dispatch (fun d _ => ih d) (e := e) trivial c).1
      cases hrun : dispatch (fun e => evaluate depth e) e c with
      | mk outcome d es =>
      rw [hrun] at hstep
      cases outcome with
      | ok v =>
        have hround := evaluate_of_ok hget hrun
        rw [hround]
        exact .computed hget (congrArg Run.outcome hround) hstep
      | error s =>
        rw [evaluate_of_error hget hrun]
        exact .broken hget hstep

/-- **Every evaluation has a course.** -/
theorem course_evaluate (depth : Nat) (e : Expr) (c : Context) :
    Course c (evaluate depth e c).events (evaluate depth e c).outcome.isOk
      (evaluate depth e c).context :=
  (courses_evaluate depth e c).1

/-- The evaluation of a text has a course. -/
theorem course_evaluateText (depth : Nat) (source : Text) (c : Context) :
    Course c (evaluateText depth source c).events (evaluateText depth source c).outcome.isOk
      (evaluateText depth source c).context :=
  (congruence_courses.evaluateText_of (fun e _ => courses_evaluate depth e) source c).1

end SpliceLisp
