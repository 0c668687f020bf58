/-
# The nearest double

Rounding to a double depends on the value of the quotient and not on how it is
written (`Binary64.nearestRank_mul_left`), and a double is nearest to itself
(`Binary64.nearestRank_units`): two doubles of one sign never have the same
size. What is below half a unit goes to zero, and from `2 ^ 2099` units on
everything goes to infinity, so the two shortcuts of `Binary64.ofDecimal` only
save work (`Binary64.ofDecimal_eq_round`).

The search for the fewest decimal places keeps what it finds as soon as that
reads back as the double. On its last grid, of `1074` places, every double has
an exact place, so what it finds always reads back
(`Binary64.nearestRank_fewestPlaces`).

Key theorems: `Binary64.nearestRank_units`, `Binary64.units_inj`,
`Binary64.ofDecimal_eq_round`, `Binary64.nearestRank_fewestPlaces`.
-/
import Mathlib
import SpliceLisp.Binary64.Shortest

namespace SpliceLisp

namespace Binary64

theorem twoTo_pos (n : Nat) : 0 < twoTo n := Nat.pow_pos (by decide)

theorem tenTo_pos (n : Nat) : 0 < tenTo n := Nat.pow_pos (by decide)

theorem twoTo_add (m n : Nat) : twoTo (m + n) = twoTo m * twoTo n := Nat.pow_add 2 m n

theorem tenTo_add (m n : Nat) : tenTo (m + n) = tenTo m * tenTo n := Nat.pow_add 10 m n

theorem twoTo_dvd_tenTo (n : Nat) : twoTo n ∣ tenTo n := pow_dvd_pow_of_dvd (by decide) n

/-! ### Rounding a quotient -/

theorem roundDiv_mul_left {k : Nat} (hk : 0 < k) (num den : Nat) :
    roundDiv (k * num) (k * den) = roundDiv num den := by
  have htwice : 2 * (k * (num % den)) = k * (2 * (num % den)) := Nat.mul_left_comm 2 k _
  simp only [roundDiv, Nat.mul_mod_mul_left, Nat.mul_div_mul_left num den hk, htwice,
    Nat.mul_lt_mul_left hk, Nat.mul_right_inj (Nat.ne_of_gt hk)]

theorem roundDiv_one (n : Nat) : roundDiv n 1 = n := by
  simp [roundDiv, Nat.mod_one]

/-- The nearest double depends on the value of the quotient alone. -/
theorem nearestRank_mul_left {k : Nat} (hk : 0 < k) (num den : Nat) :
    nearestRank (k * num) (k * den) = nearestRank num den := by
  simp only [nearestRank, Nat.mul_div_mul_left num den hk, Nat.mul_assoc, roundDiv_mul_left hk]

theorem nearestRank_of_lt {num den : Nat} (h : 2 * num < den) : nearestRank num den = 0 := by
  have hdiv : num / den = 0 := Nat.div_eq_of_lt (by omega)
  have hmod : num % den = num := Nat.mod_eq_of_lt (by omega)
  simp [nearestRank, roundDiv, hdiv, hmod, h]

/-- The more binary digits before the point, the higher the rank. -/
theorem le_nearestRank {num den e : Nat} (hden : 0 < den) (h : den * twoTo (e + 52) ≤ num) :
    e * twoTo 52 ≤ nearestRank num den := by
  have hquot : twoTo (e + 52) ≤ num / den :=
    (Nat.le_div_iff_mul_le hden).2 (Nat.mul_comm den _ ▸ h)
  have hpos : num / den ≠ 0 := Nat.ne_of_gt ((twoTo_pos (e + 52)).trans_le hquot)
  have hlog : e + 52 ≤ (num / den).log2 := (Nat.le_log2 hpos).2 hquot
  calc e * twoTo 52 ≤ ((num / den).log2 - 52) * twoTo 52 :=
        Nat.mul_le_mul_right _ (Nat.le_sub_of_add_le hlog)
    _ ≤ nearestRank num den := Nat.le_add_right _ _

/-! ### A double is nearest to itself -/

/-- From `2 ^ 52` on, a rank says how often the spacing has doubled and where
the number stands among those of its spacing. -/
theorem exists_of_le_rank {r : Nat} (h : twoTo 52 ≤ r) :
    ∃ e m, m < twoTo 52 ∧ r = e * twoTo 52 + (twoTo 52 + m) ∧
      units r = (twoTo 52 + m) * twoTo e := by
  have hq : 1 ≤ r / twoTo 52 := (Nat.one_le_div_iff (twoTo_pos 52)).2 h
  refine ⟨r / twoTo 52 - 1, r % twoTo 52, Nat.mod_lt r (twoTo_pos 52), ?_, ?_⟩
  · have hsplit := Nat.div_add_mod' r (twoTo 52)
    rw [← Nat.add_assoc, ← Nat.succ_mul, Nat.succ_eq_add_one, Nat.sub_add_cancel hq, hsplit]
  · rw [units, if_neg (Nat.not_lt.2 h)]

theorem log2_mul_twoTo {n : Nat} (hn : n ≠ 0) (e : Nat) : (n * twoTo e).log2 = n.log2 + e := by
  have hpos : n * twoTo e ≠ 0 := Nat.mul_ne_zero hn (Nat.ne_of_gt (twoTo_pos e))
  obtain ⟨hlow, hhigh⟩ := (Nat.log2_eq_iff hn).1 rfl
  rw [Nat.log2_eq_iff hpos]
  constructor
  · calc 2 ^ (n.log2 + e) = 2 ^ n.log2 * twoTo e := twoTo_add _ e
      _ ≤ n * twoTo e := Nat.mul_le_mul_right _ hlow
  · calc n * twoTo e < 2 ^ (n.log2 + 1) * twoTo e :=
          Nat.mul_lt_mul_of_pos_right hhigh (twoTo_pos e)
      _ = 2 ^ (n.log2 + 1 + e) := (twoTo_add _ e).symm
      _ = 2 ^ (n.log2 + e + 1) := by rw [Nat.add_right_comm]

theorem log2_of_spacing {m : Nat} (hm : m < twoTo 52) : (twoTo 52 + m).log2 = 52 := by
  have hpos : twoTo 52 + m ≠ 0 := Nat.ne_of_gt ((twoTo_pos 52).trans_le (Nat.le_add_right _ _))
  refine (Nat.log2_eq_iff hpos).2 ⟨Nat.le_add_right _ _, ?_⟩
  calc twoTo 52 + m < twoTo 52 + twoTo 52 := Nat.add_lt_add_left hm _
    _ = 2 ^ (52 + 1) := by decide

/-- The double nearest to a double is that double. -/
theorem nearestRank_units (r : Nat) : nearestRank (units r) 1 = r := by
  rw [nearestRank, Nat.div_one, Nat.one_mul]
  by_cases h : r < twoTo 52
  · have hlog : r.log2 - 52 = 0 := by
      by_cases h0 : r = 0
      · rw [h0]; decide
      · have := (Nat.log2_lt h0).2 h
        omega
    rw [units, if_pos h, hlog]
    simp [roundDiv_one]
  · obtain ⟨e, m, hm, hr, hu⟩ := exists_of_le_rank (Nat.not_lt.1 h)
    have hround := roundDiv_mul_left (twoTo_pos e) (twoTo 52 + m) 1
    rw [Nat.mul_one, roundDiv_one, Nat.mul_comm] at hround
    have hlog : ((twoTo 52 + m) * twoTo e).log2 - 52 = e := by
      rw [log2_mul_twoTo (by simp), log2_of_spacing hm, Nat.add_sub_cancel_left]
    rw [hu, hlog, hround, hr]

theorem nearestRank_units_mul {den : Nat} (h : 0 < den) (r : Nat) :
    nearestRank (units r * den) den = r := by
  have hscale := nearestRank_mul_left h (units r) 1
  rwa [Nat.mul_one, Nat.mul_comm, nearestRank_units] at hscale

theorem units_inj {q r : Nat} : units q = units r ↔ q = r :=
  ⟨fun h => by rw [← nearestRank_units q, h, nearestRank_units], congrArg units⟩

@[simp] theorem units_zero : units 0 = 0 := rfl

theorem units_eq_zero {r : Nat} : units r = 0 ↔ r = 0 := units_inj (r := 0)

/-! ### Decimals -/

theorem length_toDigits_le_iff {n k : Nat} (hk : 0 < k) :
    (Nat.toDigits 10 n).length ≤ k ↔ n < tenTo k :=
  Nat.length_toDigits_le_iff (by decide) hk

theorem nearestRank_of_length_le {n places : Nat}
    (h : (Nat.toDigits 10 n).length + 324 ≤ places) :
    nearestRank (n * unitsPerOne) (tenTo places) = 0 := by
  have htiny : 2 * unitsPerOne ≤ tenTo 324 := by decide +kernel
  have hdigits : 0 < (Nat.toDigits 10 n).length := List.length_pos_of_ne_nil Nat.toDigits_ne_nil
  refine nearestRank_of_lt ?_
  calc 2 * (n * unitsPerOne) = n * (2 * unitsPerOne) := Nat.mul_left_comm 2 n _
    _ ≤ n * tenTo 324 := Nat.mul_le_mul_left n htiny
    _ < tenTo (Nat.toDigits 10 n).length * tenTo 324 :=
      Nat.mul_lt_mul_of_pos_right ((length_toDigits_le_iff hdigits).1 le_rfl) (tenTo_pos 324)
    _ = tenTo ((Nat.toDigits 10 n).length + 324) := (tenTo_add _ _).symm
    _ ≤ tenTo places := Nat.pow_le_pow_right (by decide) h

theorem rankBound_le_of_lt_length {n places : Nat}
    (h : 310 + places < (Nat.toDigits 10 n).length) :
    rankBound ≤ nearestRank (n * unitsPerOne) (tenTo places) := by
  have hhuge : twoTo (2047 + 52) ≤ tenTo 310 * unitsPerOne := by decide +kernel
  have hn : tenTo (310 + places) ≤ n :=
    Nat.not_lt.1 fun hn => Nat.not_le.2 h ((length_toDigits_le_iff (by omega)).2 hn)
  refine le_nearestRank (tenTo_pos places) ?_
  calc tenTo places * twoTo (2047 + 52) ≤ tenTo places * (tenTo 310 * unitsPerOne) :=
        Nat.mul_le_mul_left _ hhuge
    _ = tenTo (310 + places) * unitsPerOne := by
      rw [tenTo_add, ← Nat.mul_assoc, Nat.mul_comm (tenTo places)]
    _ ≤ n * unitsPerOne := Nat.mul_le_mul_right _ hn

/-- The double nearest to `n / 10 ^ places` is found by rounding, whatever the
shortcuts say. -/
theorem ofDecimal_eq_round (negative : Bool) (n places : Nat) :
    ofDecimal negative n (-places) = round negative (n * unitsPerOne) (tenTo places) := by
  rw [ofDecimal]
  split
  · next h =>
    have hzero : nearestRank (n * unitsPerOne) (tenTo places) = 0 := by
      rcases h with rfl | h
      · exact nearestRank_of_lt (by simp)
      · exact nearestRank_of_length_le (by omega)
    rw [round, hzero]
  · split
    · next h =>
      have hbound : rankBound ≤ nearestRank (n * unitsPerOne) (tenTo places) :=
        rankBound_le_of_lt_length (by omega)
      rw [round, ofRank, dif_neg (Nat.not_lt.2 hbound)]
    · split
      · have h0 : places = 0 := by omega
        subst h0
        simp [tenTo]
      · simp

/-! ### The fewest places -/

theorem readsAs_of_onGrid? {r places n : Nat} (h : onGrid? r places = some n) :
    readsAs r n places = true := by
  simp only [onGrid?, Bool.and_eq_true] at h
  split at h
  · next hlow =>
    cases h
    exact hlow.1
  · split at h
    · next hhigh =>
      cases h
      exact hhigh
    · cases h

/-- On a grid that has a place for one unit every double is written exactly. -/
theorem readsAs_exact (r : Nat) {places : Nat} (h : unitsPerOne ∣ tenTo places) :
    readsAs r (units r * tenTo places / unitsPerOne) places = true := by
  have hexact := Nat.div_mul_cancel (h.mul_left (units r))
  rw [readsAs, hexact, nearestRank_units_mul (tenTo_pos places), decide_eq_true rfl]

theorem unitsPerOne_dvd : unitsPerOne ∣ tenTo 1074 := by
  unfold unitsPerOne
  exact twoTo_dvd_tenTo 1074

theorem readsAs_fewestFrom (r : Nat) : ∀ more places : Nat, more + places = 1074 →
    readsAs r (fewestFrom r more places).2 (fewestFrom r more places).1 = true
  | 0, places, h => by
    have hplaces : places = 1074 := (Nat.zero_add places).symm.trans h
    rw [fewestFrom]
    exact readsAs_exact r (hplaces ▸ unitsPerOne_dvd)
  | more + 1, places, h => by
    rw [fewestFrom]
    cases hgrid : onGrid? r places with
    | some n =>
      rw [Option.map_some, Option.getD_some]
      exact readsAs_of_onGrid? hgrid
    | none =>
      rw [Option.map_none, Option.getD_none]
      exact readsAs_fewestFrom r more (places + 1) (by omega)

/-- The decimal with the fewest places reads back as the double. -/
theorem nearestRank_fewestPlaces (r : Nat) :
    nearestRank ((fewestPlaces r).2 * unitsPerOne) (tenTo (fewestPlaces r).1) = r := by
  have h := readsAs_fewestFrom r 1073 1 rfl
  rw [readsAs, decide_eq_true_eq] at h
  rw [fewestPlaces, h]

end Binary64

end SpliceLisp
