/-
# Numbers have values

What matches the pattern of numbers writes a decimal number, in digits of
whatever scripts (`Numeral.exists_ofText?`), so that the text of a number in an
expression that a reader makes can always be taken for a double
(`Expr.exists_toNumber`).

Key theorems: `Text.isDigit_plainChar`, `Numeral.exists_ofText?`,
`Expr.exists_toNumber`.
-/
import Mathlib
import SpliceLisp.Expr.Coercion
import SpliceLisp.Proofs.Words

namespace SpliceLisp

namespace Text

theorem isAsciiDigit_iff {c : Char} : c.isDigit = true ↔ 48 ≤ c.toNat ∧ c.toNat ≤ 57 := by
  simp only [Char.isDigit, Bool.and_eq_true, decide_eq_true_eq, ge_iff_le, UInt32.le_iff_toNat_le]
  rfl

/-- A digit of any script is taken for an ASCII digit. -/
theorem isDigit_plainChar {c : Char} (h : isDigit c = true) : (plainChar c).isDigit = true := by
  obtain ⟨v, hv⟩ := Option.isSome_iff_exists.1 h
  by_cases hc : c.toNat < 128
  · rw [plainChar, if_pos hc, isAsciiDigit_iff]
    simp only [digitValue?, digitZeros, digitValueFrom?] at hv
    by_cases h1 : c.toNat < 0x30
    · simp [h1] at hv
    · by_cases h2 : c.toNat < 0x30 + 10
      · omega
      · rw [if_neg h1, if_neg h2, if_pos (by omega)] at hv
        cases hv
  · rw [plainChar, if_neg hc, hv]
    have hlt : v < 10 := lt_ten_of_digitValue? hv
    simp [Nat.isDigit_digitChar, hlt]

theorem dropWhile_eq_self {p : Char → Bool} {t : Text} (h : ∀ c ∈ t, p c = false) :
    t.dropWhile p = t := by
  cases t with
  | nil => rfl
  | cons c cs => exact List.dropWhile_cons_of_neg (by simp [h c (by simp)])

theorem trim_eq_self {p : Char → Bool} {t : Text} (h : ∀ c ∈ t, p c = false) : trim p t = t := by
  rw [trim, dropWhile_eq_self h, dropWhile_eq_self (t := t.reverse) (by simpa using h),
    List.reverse_reverse]

theorem ungroup_eq_self : ∀ {t : Text} (afterDigit : Bool), '_' ∉ t → ungroup afterDigit t = some t
  | [], _, _ => rfl
  | c :: cs, _, h => by
    simp only [List.mem_cons, not_or] at h
    rw [ungroup, if_neg (Ne.symm h.1), ungroup_eq_self _ h.2]
    rfl

theorem plainNumeral?_eq {t : Text}
    (h : ∀ c ∈ t.map plainChar, c.isDigit = true ∨ c = '.' ∨ c = '-') :
    plainNumeral? t = some (t.map plainChar) := by
  have hblank : ∀ c ∈ t.map plainChar, isAsciiBlank c = false := by
    intro c hc
    rcases h c hc with hd | rfl | rfl
    · have hrange := isAsciiDigit_iff.1 hd
      have hspace : c ≠ ' ' := by rintro rfl; cases hd
      simp only [isAsciiBlank, hspace, decide_false, Bool.false_or, decide_eq_false_iff_not]
      omega
    · decide
    · decide
  have hmark : '_' ∉ t.map plainChar := by
    intro hm
    rcases h _ hm with hd | hd | hd <;> cases hd
  rw [plainNumeral?, trim_eq_self hblank, ungroup_eq_self _ hmark]

end Text

namespace Numeral

open Text Lexeme

theorem map_plainChar_isDigit {ds : Text} (h : ∀ d ∈ ds, isDigit d = true) :
    ∀ d ∈ ds.map plainChar, d.isDigit = true := by
  intro d hd
  obtain ⟨e, he, rfl⟩ := List.mem_map.1 hd
  exact isDigit_plainChar (h e he)

theorem splitDigits_whole {ds : Text} (h : ∀ d ∈ ds, d.isDigit = true) :
    splitDigits ds = (ds, [], []) := by
  rw [splitDigits, List.dropWhile_eq_nil_iff.2 h, List.takeWhile_eq_self_iff.2 h]

theorem splitDigits_point {ds fs : Text} (h : ∀ d ∈ ds, d.isDigit = true)
    (hf : ∀ d ∈ fs, d.isDigit = true) : splitDigits (ds ++ '.' :: fs) = (ds, fs, []) := by
  have hpoint : ¬Char.isDigit '.' = true := by decide
  rw [splitDigits, List.dropWhile_append_of_pos h, List.takeWhile_append_of_pos h,
    List.dropWhile_cons_of_neg hpoint, List.takeWhile_cons_of_neg hpoint]
  simp [List.dropWhile_eq_nil_iff.2 hf, List.takeWhile_eq_self_iff.2 hf]

/-- Text that begins with a digit is no word, and if its digits have at most a
point among or after them it is the number of these digits, scaled down by those
after the point. -/
theorem unsigned?_of_splitDigits (negative : Bool) {c : Char} {cs fraction : Text}
    {whole : Text} (hc : c.isDigit = true)
    (h : splitDigits (c :: cs) = (c :: whole, fraction, [])) :
    unsigned? negative (c :: cs) =
      some (.decimal negative (digitsValue (c :: whole ++ fraction)) (-fraction.length)) := by
  have hrange := isAsciiDigit_iff.1 hc
  have hupper : ¬c.isUpper = true := by
    simp only [Char.isUpper, decide_eq_true_eq, ge_iff_le, UInt32.le_iff_toNat_le]
    change ¬(65 ≤ c.toNat ∧ c.toNat ≤ 90)
    omega
  have hword : ∀ word : Text, word.head?.all Char.isDigit = false →
      (c :: cs).map Char.toLower ≠ word := by
    rintro word hw rfl
    rw [List.map_cons, Char.toLower_eq_of_not_isUpper hupper, List.head?_cons, Option.all_some,
      hc] at hw
    cases hw
  have hnumber : ¬((c :: cs).map Char.toLower = "inf".toList ∨
      (c :: cs).map Char.toLower = "infinity".toList) :=
    not_or.2 ⟨hword _ (by decide), hword _ (by decide)⟩
  rw [unsigned?, if_neg hnumber, if_neg (hword _ (by decide)), h, ← Int.zero_sub]
  rfl

theorem exists_unsigned? (negative : Bool) {c : Char} {cs : Text} (hc : isDigit c = true)
    (hcs : NumberTail cs) : ∃ n, unsigned? negative ((c :: cs).map plainChar) = some n := by
  have hdigits : ∀ {ds : Text}, (∀ d ∈ ds, isDigit d = true) →
      ∀ d ∈ plainChar c :: ds.map plainChar, d.isDigit = true := fun hds =>
    List.forall_mem_cons.2 ⟨isDigit_plainChar hc, map_plainChar_isDigit hds⟩
  cases hcs with
  | whole _ hds =>
    exact ⟨_, unsigned?_of_splitDigits negative (isDigit_plainChar hc)
      (splitDigits_whole (hdigits hds))⟩
  | point ds fs hds hfs =>
    have hpoint : plainChar '.' = '.' := by decide
    have hsplit := splitDigits_point (hdigits hds) (map_plainChar_isDigit hfs)
    rw [List.map_cons, List.map_append, List.map_cons, hpoint]
    exact ⟨_, unsigned?_of_splitDigits negative (isDigit_plainChar hc) hsplit⟩

theorem plainChar_of_numberTail {cs : Text} (h : NumberTail cs) :
    ∀ c ∈ cs.map plainChar, c.isDigit = true ∨ c = '.' := by
  have hdigits : ∀ {ds : Text}, (∀ d ∈ ds, isDigit d = true) →
      ∀ d ∈ ds.map plainChar, d.isDigit = true ∨ d = '.' := fun hds d hd =>
    Or.inl (map_plainChar_isDigit hds d hd)
  cases h with
  | whole _ hds => exact hdigits hds
  | point ds fs hds hfs =>
    intro d hd
    rw [List.map_append, List.map_cons, List.mem_append, List.mem_cons] at hd
    obtain hd | rfl | hd := hd
    · exact hdigits hds d hd
    · exact Or.inr (by decide)
    · exact hdigits hfs d hd

theorem takeSign_of_isDigit {c : Char} {cs : Text} (h : c.isDigit = true) :
    takeSign (c :: cs) = (false, c :: cs) := by
  have hminus : c ≠ '-' := by rintro rfl; cases h
  have hplus : c ≠ '+' := by rintro rfl; cases h
  rw [takeSign, if_neg hminus, if_neg hplus]

/-- A minus before digits and a point is the sign of the number. -/
theorem ofText?_eq_unsigned? (negative : Bool) {c : Char} {cs : Text} (hc : isDigit c = true)
    (hcs : NumberTail cs) :
    ofText? ((if negative then ['-'] else []) ++ c :: cs) =
      unsigned? negative ((c :: cs).map plainChar) := by
  have hd := isDigit_plainChar hc
  have hplain : ∀ d ∈ (c :: cs).map plainChar, d.isDigit = true ∨ d = '.' ∨ d = '-' :=
    List.forall_mem_cons.2 ⟨Or.inl hd, fun d hd =>
      (plainChar_of_numberTail hcs d hd).imp_right Or.inl⟩
  have hminus : plainChar '-' = '-' := by decide
  cases negative with
  | false =>
    rw [if_neg Bool.false_ne_true, List.nil_append, ofText?, plainNumeral?_eq hplain]
    simp [takeSign_of_isDigit hd]
  | true =>
    have hall : ∀ d ∈ ('-' :: c :: cs).map plainChar, d.isDigit = true ∨ d = '.' ∨ d = '-' :=
      List.forall_mem_cons.2 ⟨Or.inr (Or.inr hminus), hplain⟩
    rw [if_pos rfl, List.singleton_append, ofText?, plainNumeral?_eq hall]
    simp [takeSign, hminus]

/-- What matches the pattern of numbers writes a number. -/
theorem exists_ofText? {t : Text} (h : Kind.admits .number t = true) : ∃ n, ofText? t = some n := by
  obtain ⟨c, cs, hc, hcs, rfl | rfl⟩ := admits_number_iff.1 h
  · obtain ⟨n, hn⟩ := exists_unsigned? false hc hcs
    exact ⟨n, (ofText?_eq_unsigned? false hc hcs).trans hn⟩
  · obtain ⟨n, hn⟩ := exists_unsigned? true hc hcs
    exact ⟨n, (ofText?_eq_unsigned? true hc hcs).trans hn⟩

end Numeral

/-- A number that a reader can make can be taken for a double. -/
theorem Expr.exists_toNumber {t : Text} (h : Lexeme.Kind.admits .number t = true) :
    ∃ x, (Expr.num t).toNumber = .ok x := by
  obtain ⟨n, hn⟩ := Numeral.exists_ofText? h
  exact ⟨Binary64.ofNumeral n, by rw [Expr.toNumber, hn]⟩

end SpliceLisp
