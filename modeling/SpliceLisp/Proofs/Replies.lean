/-
# Every line gets a reply

Some operations are defined for some arguments only: a quotient and a remainder for
finite numbers and a divisor other than zero, taking apart for a list of the right
length, the value of a number for a text of the right pattern. The checks before
them suffice. Quotients, remainders and lists never meet what they are undefined
for, in whatever context, through whatever call (`outcome_turn_ne_undefined`): a
primitive has counted its arguments and looked at its numbers, and that is so for
every way to evaluate an argument. What the text of a number is, is up to who makes
it, and a session makes none that has no value.

So a line is answered by a value, by an error, or by the end of the session
(`reply_cases`).

Key theorems: `outcome_turn_ne_undefined`, `reply_cases`, `reply_of_session`.
-/
import Mathlib
import SpliceLisp.Proofs.WellFormed

namespace SpliceLisp

theorem invariant_everything : Invariant .everything (fun _ => True) fun _ => True where
  global _ _ := Domain.fine_everything _
  kept _ _ _ := Domain.returns_everything _ _
  bind _ _ _ _ := ⟨trivial, trivial⟩
  remember _ _ _ := trivial
  entered _ _ := trivial
  returned _ _ := trivial
  invoked _ := trivial
  applied _ _ := trivial
  exhausted := trivial
  endTurn _ := trivial

/-- No turn stops at an operation that is undefined for what it is given. -/
theorem outcome_turn_ne_undefined (depth : Nat) (source : Text) (c : Context)
    (operation : Operation) : (turn depth source c).outcome ≠ .error (.undefined operation) := by
  obtain ⟨-, -, hstop, -⟩ := invariant_everything.turn depth source (c := c) trivial
  exact fun h => hstop _ h

/-- The reply to a turn that stops at no undefined operation. -/
theorem reply_cases {outcome : Except Stop Expr}
    (h : ∀ operation, outcome ≠ .error (.undefined operation)) :
    (outcome = .error .quit ∧ reply outcome = none) ∨
      (∃ v, outcome = .ok v ∧ reply outcome = some ("> " ++ v.render)) ∨
        ∃ (s : Stop) (t : Text), outcome = .error s ∧ s ≠ .quit ∧
          reply outcome = some ("error: " ++ t) := by
  cases outcome with
  | ok v => exact Or.inr (Or.inl ⟨v, rfl, rfl⟩)
  | error s =>
    cases s with
    | quit => exact Or.inl ⟨rfl, rfl⟩
    | fault f => exact Or.inr (Or.inr ⟨_, f.detail, rfl, nofun, rfl⟩)
    | tooDeep =>
      exact Or.inr (Or.inr ⟨_, "maximum recursion depth exceeded.", rfl, nofun, rfl⟩)
    | undefined operation => exact absurd rfl (h operation)

/-- **Nothing but a reply comes out of a session.** After any turns from the start,
the next line meets no operation outside its domain, every number in the context and
on the way of the turn has a value, and the reply is that of a value, that of an
error, or none where the session is asked to end. -/
theorem reply_of_session (depth : Nat) (earlier : List Text) (line : Text) :
    let before := Context.startup.afterTurns depth earlier
    let run := turn depth line before
    (∀ operation, run.outcome ≠ .error (.undefined operation)) ∧
      (∀ e ∈ before.exprs ++ run.exprs, ∀ t, .num t ∈ e.parts →
        ∃ x, (Expr.num t).toNumber = .ok x) ∧
      ((run.outcome = .error .quit ∧ reply run.outcome = none) ∨
        (∃ v, run.outcome = .ok v ∧ reply run.outcome = some ("> " ++ v.render)) ∨
          ∃ (s : Stop) (t : Text), run.outcome = .error s ∧ s ≠ .quit ∧
            reply run.outcome = some ("error: " ++ t)) := by
  intro before run
  have hdefined := outcome_turn_ne_undefined depth line before
  have hbefore : before.WellFormed := Context.wellFormed_afterTurns depth earlier
  refine ⟨hdefined, fun e he t ht => ?_, reply_cases hdefined⟩
  have hw : e.WellFormed := (List.mem_append.1 he).elim (hbefore e)
    (wellFormed_of_mem_turn hbefore depth line e)
  exact Expr.exists_toNumber_of_mem_parts hw ht

end SpliceLisp
