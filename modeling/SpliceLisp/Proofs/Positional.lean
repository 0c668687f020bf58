/-
# Numbers survive printing

Every finite double has a text, and the text is read as that double again, as one
number; only zero loses its sign (`Expr.ofNumber_round_trip`). So texts tell numbers
apart just as their values do, and to compare the results of arithmetic as expressions
is to compare them as numbers.

A text in positional notation consists of the digits of a natural number `n`, with a
point before the last `places` of them (`Binary64.Positional`). As a numeral it says
`n / 10 ^ places`, without any loss (`Numeral.ofText?_positional`), and that the double
nearest to this is the one that was written is what the search for the fewest places
looks for (`Binary64.nearestRank_fewestPlaces`). A minus stands before it for all
negative numbers but negative zero.

Key definition: `Binary64.Positional`.
Key theorems: `Numeral.ofText?_positional`, `Binary64.toNumber_finiteText`,
`Binary64.finiteText_inj`, `Expr.ofNumber_round_trip`.
-/
import Mathlib
import SpliceLisp.Proofs.Nearest
import SpliceLisp.Proofs.NumberText
import SpliceLisp.Proofs.NumberValue
import SpliceLisp.Proofs.OnValues
import SpliceLisp.Proofs.RoundTrip

namespace SpliceLisp

/-! ### Digits and what they say -/

namespace Text

theorem digitsValue_append_digit (t : Text) {d : Nat} (hd : d < 10) :
    digitsValue (t ++ [Nat.digitChar d]) = 10 * digitsValue t + d := by
  rw [digitsValue, List.foldl_append, List.foldl_cons, List.foldl_nil,
    Nat.toNat_digitChar_sub_48_of_lt_ten hd]
  rfl

theorem digitsValue_decimal (n : Nat) : digitsValue (decimal n) = n :=
  Nat.ofDigitChars_toDigits (by decide) (by decide)

theorem digitsValue_lastDigits : ∀ width n : Nat,
    digitsValue (decimal (n / tenTo width) ++ lastDigits 10 width n) = n
  | 0, n => by
    rw [lastDigits, List.append_nil, digitsValue_decimal]
    exact Nat.div_one n
  | width + 1, n => by
    have hdiv : n / tenTo (width + 1) = n / 10 / tenTo width := by
      rw [Nat.div_div_eq_div_mul, Nat.mul_comm]
      rfl
    rw [lastDigits, ← List.append_assoc, digitsValue_append_digit _ (Nat.mod_lt n (by decide)),
      hdiv, digitsValue_lastDigits width (n / 10), Nat.div_add_mod]

theorem plainChar_of_isAsciiDigit {c : Char} (h : c.isDigit = true) : plainChar c = c := by
  have hrange := isAsciiDigit_iff.1 h
  rw [plainChar, if_pos (by omega)]

end Text

namespace Binary64

open Text

/-- The text writes `n / 10 ^ places`: it consists of the digits of a whole number, or of
digits with a point before the last of them. -/
inductive Positional : Nat → Nat → Text → Prop
  | whole (n : Nat) : Positional 0 n (decimal n)
  | point (places n : Nat) : Positional places n (positional places n)

variable {places n : Nat} {t : Text}

theorem Positional.mem (h : Positional places n t) {c : Char} (hc : c ∈ t) :
    c.isDigit = true ∨ c = '.' := by
  cases h with
  | whole => exact Or.inl (isAsciiDigit_of_mem_decimal hc)
  | point =>
    rw [positional, List.mem_append, List.mem_cons] at hc
    rcases hc with hc | rfl | hc
    · exact Or.inl (isAsciiDigit_of_mem_decimal hc)
    · exact Or.inr rfl
    · exact Or.inl (isAsciiDigit_of_mem_lastDigits hc)

theorem Positional.map_plainChar (h : Positional places n t) : t.map plainChar = t := by
  rw [List.map_congr_left (g := id), List.map_id]
  intro c hc
  rcases h.mem hc with hdigit | rfl
  · exact plainChar_of_isAsciiDigit hdigit
  · decide

theorem Positional.exists_digits (h : Positional places n t) : ∃ c cs ds fs, t = c :: cs ∧
    c.isDigit = true ∧ Lexeme.NumberTail cs ∧ Numeral.splitDigits t = (c :: ds, fs, []) ∧
      digitsValue (c :: ds ++ fs) = n ∧ fs.length = places := by
  cases h with
  | whole =>
    obtain ⟨c, cs, hn, -, hcs⟩ := exists_decimal_eq_cons n
    have hdigits : ∀ d ∈ decimal n, d.isDigit = true := fun d => isAsciiDigit_of_mem_decimal
    refine ⟨c, cs, cs, [], hn, hdigits c (hn ▸ List.mem_cons_self), .whole cs hcs, ?_, ?_, rfl⟩
    · rw [Numeral.splitDigits_whole hdigits, hn]
    · rw [← hn, List.append_nil, digitsValue_decimal]
  | point =>
    obtain ⟨c, ds, hn, -, hds⟩ := exists_decimal_eq_cons (n / tenTo places)
    have hdigits : ∀ d ∈ decimal (n / tenTo places), d.isDigit = true := fun d =>
      isAsciiDigit_of_mem_decimal
    have hlast : ∀ d ∈ lastDigits 10 places n, d.isDigit = true := fun d =>
      isAsciiDigit_of_mem_lastDigits
    refine ⟨c, ds ++ '.' :: lastDigits 10 places n, ds, lastDigits 10 places n, ?_,
      hdigits c (hn ▸ List.mem_cons_self), ?_, ?_, ?_, length_lastDigits 10 places n⟩
    · rw [positional, hn, List.cons_append]
    · exact .point ds _ hds fun d hd => isDigit_of_isAsciiDigit (hlast d hd)
    · rw [positional, Numeral.splitDigits_point hdigits hlast, hn]
    · rw [← hn, digitsValue_lastDigits]

end Binary64

open Binary64 in
/-- As a numeral a text in positional notation says what it writes. -/
theorem Numeral.ofText?_positional (negative : Bool) {places n : Nat} {t : Text}
    (h : Positional places n t) :
    ofText? ((if negative then ['-'] else []) ++ t) = some (.decimal negative n (-places)) := by
  obtain ⟨c, cs, ds, fs, rfl, hc, hcs, hsplit, hvalue, hlength⟩ := h.exists_digits
  rw [ofText?_eq_unsigned? negative (Text.isDigit_of_isAsciiDigit hc) hcs, h.map_plainChar,
    unsigned?_of_splitDigits negative hc hsplit, hvalue, hlength]

namespace Binary64

open Text
open SpliceLisp.Expr (num ofNumber)

theorem toNumber_positional (negative : Bool) {places n : Nat} {t : Text}
    (h : Positional places n t) :
    (num ((if negative then ['-'] else []) ++ t)).toNumber =
      .ok (ofRank negative (nearestRank (n * unitsPerOne) (tenTo places))) := by
  rw [Expr.toNumber, Numeral.ofText?_positional negative h]
  change Except.ok (ofDecimal negative n (-places)) = _
  rw [ofDecimal_eq_round, round]

/-! ### The text of a double -/

theorem decimalInt_signedInt {n : Nat} (h : n ≠ 0) (negative : Bool) :
    decimalInt (signedInt negative n) = (if negative then ['-'] else []) ++ decimal n := by
  cases n with
  | zero => exact absurd rfl h
  | succ n => cases negative <;> rfl

theorem finiteText_zero (negative : Bool) : finiteText negative 0 = decimal 0 := by
  rw [finiteText, units_zero, Nat.zero_mod, if_pos rfl, Nat.zero_div]
  cases negative <;> rfl

/-- The text of a double other than zero is a decimal that reads back as the double, behind a
minus if it is negative. -/
theorem finiteText_eq {r : Nat} (h : r ≠ 0) (negative : Bool) : ∃ places n t,
    Positional places n t ∧ nearestRank (n * unitsPerOne) (tenTo places) = r ∧
      finiteText negative r = (if negative then ['-'] else []) ++ t := by
  by_cases hwhole : units r % unitsPerOne = 0
  · have hunits : units r / unitsPerOne * unitsPerOne = units r :=
      Nat.div_mul_cancel (Nat.dvd_of_mod_eq_zero hwhole)
    have hpos : units r / unitsPerOne ≠ 0 := by
      intro hzero
      rw [hzero, Nat.zero_mul] at hunits
      exact h (units_eq_zero.1 hunits.symm)
    refine ⟨0, units r / unitsPerOne, _, .whole _, ?_, ?_⟩
    · rw [hunits]
      exact nearestRank_units r
    · rw [finiteText, if_pos hwhole, decimalInt_signedInt hpos]
  · refine ⟨(fewestPlaces r).1, (fewestPlaces r).2, _, .point _ _, nearestRank_fewestPlaces r, ?_⟩
    rw [finiteText, if_neg hwhole]

theorem mem_finiteText {negative : Bool} {r : Nat} {c : Char} (hc : c ∈ finiteText negative r) :
    c.isDigit = true ∨ c = '-' ∨ c = '.' := by
  by_cases h : r = 0
  · rw [h, finiteText_zero] at hc
    exact Or.inl (isAsciiDigit_of_mem_decimal hc)
  · obtain ⟨places, n, t, ht, -, htext⟩ := finiteText_eq h negative
    rw [htext, List.mem_append] at hc
    rcases hc with hc | hc
    · cases negative with
      | true => exact Or.inr (Or.inl (List.mem_singleton.1 hc))
      | false => cases hc
    · exact (ht.mem hc).imp_right Or.inr

/-- A double with the sign of zero left out. -/
def unsignedZero (x : Binary64) : Binary64 := if x.isZero then zero else x

theorem unsignedZero_finite (negative : Bool) (r : Fin rankBound) :
    (finite negative r).unsignedZero = if r.val = 0 then zero else finite negative r := by
  simp [unsignedZero, isZero]

/-- The text of a double is read as that double. -/
theorem toNumber_finiteText (negative : Bool) (r : Fin rankBound) :
    (num (finiteText negative r)).toNumber = .ok (finite negative r).unsignedZero := by
  by_cases h : r.val = 0
  · rw [h, finiteText_zero]
    have hzero : (num (decimal 0)).toNumber = .ok zero := by decide +kernel
    rw [hzero, unsignedZero_finite, if_pos h]
  · obtain ⟨places, n, t, ht, hrank, htext⟩ := finiteText_eq h negative
    rw [htext, toNumber_positional negative ht, hrank, ofRank_val, unsignedZero_finite, if_neg h]

theorem value?_unsignedZero {x : Binary64} (h : x.isFinite = true) :
    x.unsignedZero.value? = x.value? := by
  cases x with
  | finite negative r =>
    rw [unsignedZero_finite]
    split
    · next hr =>
      rw [value?, hr]
      cases negative <;> rfl
    · rfl
  | infinite negative => cases h
  | nan => cases h

theorem signedInt_inj {s u : Bool} {m n : Nat} :
    signedInt s m = signedInt u n ↔ m = n ∧ (n = 0 ∨ s = u) := by
  cases s <;> cases u <;> simp [signedInt] <;> omega

/-- Doubles have the same text exactly if they have the same value. -/
theorem finiteText_inj {s u : Bool} {q r : Fin rankBound} :
    finiteText s q = finiteText u r ↔ (finite s q).value? = (finite u r).value? := by
  constructor
  · intro h
    have hread := toNumber_finiteText s q
    rw [h, toNumber_finiteText u r] at hread
    rw [← value?_unsignedZero (isFinite_finite s q), ← Except.ok.inj hread,
      value?_unsignedZero (isFinite_finite u r)]
  · intro h
    obtain ⟨hunits, hsign⟩ := signedInt_inj.1 (Option.some.inj h)
    rw [units_inj.1 hunits]
    rcases hsign with hzero | rfl
    · rw [units_eq_zero.1 hzero, finiteText_zero, finiteText_zero]
    · rfl

end Binary64

/-! ### Equality of results -/

open Eval Direct Binary64
open SpliceLisp.Expr (num ofBool ofNumber read readAll)

theorem Lexeme.scan_number {t : Text} (h : Kind.admits .number t = true) :
    scan t = ⟨[⟨.number, t, 0⟩], none⟩ := by
  have hend : Delimited [] := trivial
  have hscan := scanFrom_word rfl h hend 0
  rw [List.append_nil] at hscan
  rw [scan, hscan]
  rfl

theorem Expr.same_ofNumber {a b : Binary64} {d e : Expr} (hd : ofNumber a = .ok d)
    (he : ofNumber b = .ok e) : d.same e = decide (a.value? = b.value?) := by
  obtain ⟨s, q, rfl, rfl⟩ := exists_of_ofNumber hd
  obtain ⟨u, r, rfl, rfl⟩ := exists_of_ofNumber he
  exact decide_eq_decide.2 finiteText_inj

namespace Primitive

variable {ev : Expr → Eval Expr} {es : List Expr} {c : Context}

/-- A primitive has a value if it is given as many arguments as it takes, these have values,
and it has one for them. -/
theorem perform_ok_iff {p : Primitive} (hp : p ∉ [car, cdr, atom]) {v : Expr} :
    (p.perform ev es c).outcome = .ok v ↔ p.arityFault? es.length = none ∧
      ∃ vs, (arguments ev es c).outcome = .ok vs ∧ onValues p vs = .ok v := by
  cases harity : p.arityFault? es.length with
  | some f =>
    have hfail : p.perform ev es = fail f := by rw [perform, harity]
    simp [hfail, fail]
  | none =>
    have hcompute : p.perform ev es = arguments ev es >>= fun vs => ofExcept (onValues p vs) := by
      rw [perform, harity]
      exact compute_eq hp harity
    rw [hcompute, bind_apply]
    cases hargs : (arguments ev es c).outcome with
    | error s => simp
    | ok vs => cases hvs : onValues p vs <;> simp [Eval.ofExcept, fail, hvs]

theorem exists_ofNumber_of_perform {p : Primitive} (hp : p ∈ arithmetic) {v : Expr}
    (h : (p.perform ev es c).outcome = .ok v) : ∃ x, ofNumber x = .ok v := by
  have hfew : ∀ q ∈ arithmetic, q ∉ [car, cdr, atom] := by decide
  obtain ⟨-, vs, -, hvs⟩ := (perform_ok_iff (hfew p hp)).1 h
  exact exists_ofNumber_of_onValues hp hvs

theorem perform_eq_ofNumber {a b : Binary64} {e₁ e₂ v w : Expr}
    (hargs : (arguments ev [e₁, e₂] c).outcome = .ok [v, w]) (hv : ofNumber a = .ok v)
    (hw : ofNumber b = .ok w) :
    (eq.perform ev [e₁, e₂] c).outcome = .ok (ofBool (decide (a.value? = b.value?))) := by
  rw [perform_ok_iff (by decide)]
  refine ⟨rfl, _, hargs, ?_⟩
  rw [← Expr.same_ofNumber hv hw]
  rfl

end Primitive

/-- **Numbers survive printing.** The text of every finite double consists of digits, with a
minus and a point at the most. It is one lexeme, a number, and is read as the number that it
is the text of; and this number is taken for that double again, or for zero if it was negative
zero. So two doubles are written as equal numbers exactly if they have the same value. What
arithmetic gives is such a number, and equality of two such arguments decides whether their
values are the same. -/
theorem Expr.ofNumber_round_trip :
    (∀ x : Binary64, x.isFinite = true → ∃ t, ofNumber x = .ok (num t) ∧
      (∀ c ∈ t, c.isDigit = true ∨ c = '-' ∨ c = '.') ∧
      Lexeme.scan t = ⟨[⟨.number, t, 0⟩], none⟩ ∧
      read t = .ok (num t) ∧ readAll t = ⟨[num t], none⟩ ∧
      (num t).toNumber = .ok (if x.isZero then zero else x)) ∧
    (∀ (a b : Binary64) (v w : Expr), ofNumber a = .ok v → ofNumber b = .ok w →
      (v.same w = true ↔ a.value? = b.value?)) ∧
    ∀ (ev : Expr → Eval Expr) (c : Context),
      (∀ p ∈ arithmetic, ∀ (es : List Expr) (v : Expr), (p.perform ev es c).outcome = .ok v →
        ∃ x : Binary64, x.isFinite = true ∧ ofNumber x = .ok v) ∧
      ∀ (e₁ e₂ v w : Expr) (a b : Binary64), (arguments ev [e₁, e₂] c).outcome = .ok [v, w] →
        ofNumber a = .ok v → ofNumber b = .ok w →
        (Primitive.eq.perform ev [e₁, e₂] c).outcome =
          .ok (ofBool (decide (a.value? = b.value?))) := by
  refine ⟨fun x hx => ?_, fun a b v w hv hw => ?_, fun ev c => ⟨fun p hp es v h => ?_, ?_⟩⟩
  · cases x with
    | infinite s => cases hx
    | nan => cases hx
    | finite s r =>
      have hnumber := admits_finiteText s r
      have hspells := Spells.number hnumber
      exact ⟨_, rfl, fun _ => mem_finiteText, Lexeme.scan_number hnumber, hspells.read,
        hspells.readAll, toNumber_finiteText s r⟩
  · rw [same_ofNumber hv hw, decide_eq_true_eq]
  · obtain ⟨x, hx⟩ := Primitive.exists_ofNumber_of_perform hp h
    obtain ⟨s, r, rfl, -⟩ := exists_of_ofNumber hx
    exact ⟨_, rfl, hx⟩
  · exact fun _ _ _ _ _ _ => Primitive.perform_eq_ofNumber

/-- A number that is small enough for an exponent is written out, the least one reads back as
well, and negative zero has no minus. One tenth and two tenths add up to what is written
otherwise than three tenths. -/
theorem Expr.ofNumber_round_trip_small :
    let small := ofBits 0xBE90C6F7A0B5ED8D
    let least := ofRank true 1
    let tenths : List Expr := [num "0.1", num "0.2"]
    let sum : Expr := num "0.30000000000000004"
    (small.isFinite = true ∧ ofNumber small = .ok (num "-0.00000025") ∧
      (num "-0.00000025").toNumber = .ok small) ∧
    (least.isFinite = true ∧ ∃ t, ofNumber least = .ok (num t) ∧ read t = .ok (num t) ∧
      (num t).toNumber = .ok least) ∧
    (ofNumber (ofRank true 0) = .ok (num "0") ∧ (num "0").toNumber = .ok zero) ∧
    ((Primitive.add.perform (evaluate 9) tenths Context.startup).outcome = .ok sum ∧
      ∃ x : Binary64, x.isFinite = true ∧ ofNumber x = .ok sum) ∧
    (Primitive.eq.perform (evaluate 9) [list (sym "+" :: tenths), num "0.3"]
      Context.startup).outcome = .ok (ofBool false) := by
  intro small least tenths sum
  obtain ⟨hprinted, -, hperformed⟩ := ofNumber_round_trip
  obtain ⟨hsum, hequal⟩ := hperformed (evaluate 9) Context.startup
  have hreads : ∀ (x y : Binary64) (t : Text), x.isFinite = true → ofNumber x = .ok (num t) →
      (if x.isZero then zero else x) = y → (num t).toNumber = .ok y := by
    intro x y t hx ht hy
    obtain ⟨u, hu, -, -, -, -, hvalue⟩ := hprinted x hx
    obtain rfl : u = t := num.inj (Except.ok.inj (hu.symm.trans ht))
    rw [hvalue, hy]
  have hsmall : ofNumber small = .ok (num "-0.00000025".toList) := by decide +kernel
  have hzero : ofNumber (ofRank true 0) = .ok (num "0".toList) := by decide +kernel
  have hadd : (Primitive.add.perform (evaluate 9) tenths Context.startup).outcome = .ok sum := by
    decide +kernel
  have hargs : (arguments (evaluate 9) [list (sym "+" :: tenths), num "0.3"]
      Context.startup).outcome = .ok [sum, num "0.3"] := by decide +kernel
  have ha : ofNumber (ofBits 0x3FD3333333333334) = .ok sum := by decide +kernel
  have hb : ofNumber (ofBits 0x3FD3333333333333) = .ok (num "0.3".toList) := by decide +kernel
  refine ⟨⟨by decide +kernel, hsmall, ?_⟩, ⟨by decide +kernel, ?_⟩, ⟨hzero, ?_⟩,
    ⟨hadd, hsum .add (by decide) tenths sum hadd⟩, ?_⟩
  · exact hreads small small _ (by decide +kernel) hsmall (by decide +kernel)
  · obtain ⟨t, ht, -, -, hread, -, hvalue⟩ := hprinted least (by decide +kernel)
    refine ⟨t, ht, hread, hvalue.trans ?_⟩
    decide +kernel
  · exact hreads (ofRank true 0) zero _ (by decide +kernel) hzero (by decide +kernel)
  · refine (hequal _ _ _ _ _ _ hargs ha hb).trans ?_
    decide +kernel

end SpliceLisp
