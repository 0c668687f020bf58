/-
# Results are numbers again

A finite double is written in positional notation, so what an operation makes
of numbers can be read again (`Binary64.admits_finiteText`): digits, with a
minus before and a point among them at the most.

Key theorems: `Binary64.admits_finiteText`, `Expr.readable_of_ofNumber`.
-/
import Mathlib
import SpliceLisp.Expr.Coercion
import SpliceLisp.Proofs.Readable

namespace SpliceLisp

/-! ### Digits -/

namespace Text

theorem isDigit_of_isAsciiDigit {c : Char} (h : c.isDigit = true) : isDigit c = true := by
  rw [isDigit, digitValue?_of_isDigit h]
  rfl

theorem isAsciiDigit_of_mem_decimal {n : Nat} {c : Char} (h : c ∈ decimal n) : c.isDigit = true :=
  Nat.isDigit_of_mem_toDigits (by decide) (by decide) h

theorem isAsciiDigit_of_mem_lastDigits {c : Char} : ∀ {width n : Nat},
    c ∈ lastDigits 10 width n → c.isDigit = true
  | 0, _, h => by cases h
  | width + 1, n, h => by
    rw [lastDigits, List.mem_append, List.mem_singleton] at h
    rcases h with h | rfl
    · exact isAsciiDigit_of_mem_lastDigits h
    · have hlt : n % 10 < 10 := Nat.mod_lt n (by decide)
      simp [Nat.isDigit_digitChar, hlt]

theorem exists_decimal_eq_cons (n : Nat) : ∃ c cs, decimal n = c :: cs ∧ isDigit c = true ∧
    ∀ d ∈ cs, isDigit d = true := by
  cases h : decimal n with
  | nil => exact absurd h Nat.toDigits_ne_nil
  | cons c cs =>
    have hall : ∀ d ∈ c :: cs, isDigit d = true := fun d hd =>
      isDigit_of_isAsciiDigit (isAsciiDigit_of_mem_decimal (h ▸ hd))
    exact ⟨c, cs, rfl, hall c (by simp), fun d hd => hall d (by simp [hd])⟩

end Text

/-! ### Texts of doubles -/

namespace Binary64

open Lexeme

theorem admits_decimalInt (z : Int) : Kind.admits .number (Text.decimalInt z) = true := by
  cases z with
  | ofNat n =>
    obtain ⟨c, cs, hn, hc, hcs⟩ := Text.exists_decimal_eq_cons n
    exact admits_number_iff.2 ⟨c, cs, hc, .whole cs hcs, Or.inl hn⟩
  | negSucc n =>
    obtain ⟨c, cs, hn, hc, hcs⟩ := Text.exists_decimal_eq_cons (n + 1)
    exact admits_number_iff.2 ⟨c, cs, hc, .whole cs hcs, Or.inr (congrArg ('-' :: ·) hn)⟩

theorem positional_eq_cons (places n : Nat) :
    ∃ c cs, positional places n = c :: cs ∧ Text.isDigit c = true ∧ NumberTail cs := by
  obtain ⟨c, cs, hn, hc, hcs⟩ := Text.exists_decimal_eq_cons (n / tenTo places)
  refine ⟨c, cs ++ '.' :: Text.lastDigits 10 places n, ?_, hc, ?_⟩
  · rw [positional, hn, List.cons_append]
  · exact .point cs _ hcs fun d hd =>
      Text.isDigit_of_isAsciiDigit (Text.isAsciiDigit_of_mem_lastDigits hd)

/-- The text of a finite double has the pattern of numbers. -/
theorem admits_finiteText (negative : Bool) (r : Nat) :
    Kind.admits .number (finiteText negative r) = true := by
  by_cases h : units r % unitsPerOne = 0
  · rw [finiteText, if_pos h]
    exact admits_decimalInt _
  · obtain ⟨c, cs, hn, hc, hcs⟩ := positional_eq_cons (fewestPlaces r).1 (fewestPlaces r).2
    rw [finiteText, if_neg h, hn]
    cases negative with
    | true => exact admits_number_iff.2 ⟨c, cs, hc, hcs, Or.inr rfl⟩
    | false => exact admits_number_iff.2 ⟨c, cs, hc, hcs, Or.inl rfl⟩

end Binary64

theorem Expr.exists_of_ofNumber {x : Binary64} {e : Expr} (h : Expr.ofNumber x = .ok e) :
    ∃ negative r, x = .finite negative r ∧ e = .num (Binary64.finiteText negative r) := by
  cases x with
  | finite negative r => exact ⟨negative, r, rfl, (Except.ok.inj h).symm⟩
  | infinite negative => cases h
  | nan => cases h

/-- What a double is written as can be read. -/
theorem Expr.readable_of_ofNumber {x : Binary64} {e : Expr} (h : Expr.ofNumber x = .ok e) :
    ∃ t, e = .num t ∧ Lexeme.Kind.admits .number t = true := by
  obtain ⟨negative, r, -, rfl⟩ := exists_of_ofNumber h
  exact ⟨_, rfl, Binary64.admits_finiteText negative r⟩

end SpliceLisp
