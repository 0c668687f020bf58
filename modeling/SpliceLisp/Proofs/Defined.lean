/-
# Operations within their domain

Whoever takes apart the arguments of a primitive has counted them before, and
whoever divides has seen that the numbers are finite and the divisor is not
zero. These are the facts behind that.

Key theorems: `ok_of_bind`, `length_of_mapM`, `Primitive.length_of_exactly`,
`Binary64.isSome_of_isFinite`.
-/
import SpliceLisp.Evaluation.Primitives

namespace SpliceLisp

/-- A sequence that ends well ends well at each step. -/
theorem ok_of_bind {α β : Type} {x : Except Fault α} {f : α → Except Fault β} {b : β}
    (h : x >>= f = .ok b) : ∃ a, x = .ok a ∧ f a = .ok b := by
  cases x with
  | ok a => exact ⟨a, rfl, h⟩
  | error s => cases h

theorem length_of_mapM {α β : Type} {f : α → Except Fault β} : ∀ {as : List α} {bs : List β},
    as.mapM f = .ok bs → bs.length = as.length
  | [], bs, h => by cases h; rfl
  | a :: as, bs, h => by
    rw [List.mapM_cons] at h
    obtain ⟨b, -, h⟩ := ok_of_bind h
    obtain ⟨cs, hcs, h⟩ := ok_of_bind h
    cases h
    rw [List.length_cons, List.length_cons, length_of_mapM hcs]

namespace Primitive

variable {p : Primitive} {given count : Nat} (h : p.arityFault? given = none)
include h

theorem length_of_exactly (hp : p.arity = .exactly count) : given = count := by
  by_cases hc : given = count
  · exact hc
  · simp [arityFault?, hp, hc] at h

theorem length_of_atLeast (hp : p.arity = .atLeast count) : count ≤ given := by
  by_cases hc : count ≤ given
  · exact hc
  · simp [arityFault?, hp, hc] at h

end Primitive

namespace Binary64

/-- Finite numbers have a quotient and a remainder, unless the divisor is zero. -/
theorem isSome_of_isFinite {a b : Binary64} (ha : a.isFinite = true) (hb : b.isFinite = true)
    (hz : b.isZero = false) : (a.div? b).isSome = true ∧ (a.rem? b).isSome = true := by
  cases a with
  | finite s r =>
    cases b with
    | finite t q =>
      have hq : q.val ≠ 0 := by simpa [isZero] using hz
      exact ⟨isSome_div? hq, isSome_rem? hq⟩
    | infinite t => cases hb
    | nan => cases hb
  | infinite s => cases ha
  | nan => cases ha

end Binary64

end SpliceLisp
