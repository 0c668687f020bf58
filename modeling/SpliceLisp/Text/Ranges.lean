/-
# Ranges of code points

A class of characters is a list of closed ranges of code points, in increasing
order and apart from one another. A search stops at the first range that
begins beyond the code point it looks for.

Key definitions: `Ranges`, `Ranges.covers`, `Ranges.increasing`.
Key theorem: `Ranges.covers_iff`.
-/

namespace SpliceLisp

/-- Closed ranges of code points, in increasing order. -/
abbrev Ranges := List (Nat × Nat)

namespace Ranges

def covers : Ranges → Nat → Bool
  | [], _ => false
  | (lo, hi) :: rest, n => decide (lo ≤ n) && (decide (n ≤ hi) || covers rest n)

/-- Whether the ranges are in increasing order, apart from one another and none
begins below `start`. -/
def increasingFrom (start : Nat) : Ranges → Bool
  | [] => true
  | (lo, hi) :: rest => decide (start ≤ lo) && (decide (lo ≤ hi) && increasingFrom (hi + 1) rest)

/-- Whether the ranges are in increasing order and apart from one another. -/
def increasing (rs : Ranges) : Bool := increasingFrom 0 rs

theorem le_of_increasingFrom {start : Nat} : ∀ {rs : Ranges},
    increasingFrom start rs = true → ∀ r ∈ rs, start ≤ r.1
  | [], _, r, hr => by cases hr
  | (lo, hi) :: rest, h, r, hr => by
    simp only [increasingFrom, Bool.and_eq_true, decide_eq_true_eq] at h
    rcases List.mem_cons.1 hr with rfl | hr
    · exact h.1
    · have := le_of_increasingFrom h.2.2 r hr
      omega

theorem covers_iff_of_increasingFrom {start n : Nat} : ∀ {rs : Ranges},
    increasingFrom start rs = true → (covers rs n = true ↔ ∃ r ∈ rs, r.1 ≤ n ∧ n ≤ r.2)
  | [], _ => by simp [covers]
  | (lo, hi) :: rest, h => by
    simp only [increasingFrom, Bool.and_eq_true, decide_eq_true_eq] at h
    simp only [covers, Bool.and_eq_true, Bool.or_eq_true, decide_eq_true_eq,
      covers_iff_of_increasingFrom h.2.2, List.mem_cons, exists_eq_or_imp]
    constructor
    · rintro ⟨hlo, hhi | hrest⟩
      · exact Or.inl ⟨hlo, hhi⟩
      · exact Or.inr hrest
    · rintro (⟨hlo, hhi⟩ | ⟨r, hr, hb⟩)
      · exact ⟨hlo, Or.inl hhi⟩
      · have := le_of_increasingFrom h.2.2 r hr
        exact ⟨by omega, Or.inr ⟨r, hr, hb⟩⟩

/-- A code point is covered when it lies in one of the ranges. -/
theorem covers_iff {n : Nat} {rs : Ranges} (h : rs.increasing = true) :
    rs.covers n = true ↔ ∃ r ∈ rs, r.1 ≤ n ∧ n ≤ r.2 :=
  covers_iff_of_increasingFrom h

end Ranges

end SpliceLisp
