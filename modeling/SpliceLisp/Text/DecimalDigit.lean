/-
# Decimal digits

Unicode 14 has 66 sets of ten decimal digits. Each set is a run of code points
that begins at its zero, so a digit's value is its distance from the zero.

Key definitions: `Text.digitValue?`, `Text.isDigit`.
Key theorems: `Text.lt_ten_of_digitValue?`, `Text.digitValue?_of_isDigit`.
-/
import SpliceLisp.Text.Basic

namespace SpliceLisp

namespace Text

/-- The zeros, in increasing order. -/
def digitZeros : List Nat :=
  [0x30, 0x660, 0x6F0, 0x7C0, 0x966, 0x9E6, 0xA66, 0xAE6, 0xB66, 0xBE6, 0xC66, 0xCE6, 0xD66, 0xDE6,
   0xE50, 0xED0, 0xF20, 0x1040, 0x1090, 0x17E0, 0x1810, 0x1946, 0x19D0, 0x1A80, 0x1A90, 0x1B50,
   0x1BB0, 0x1C40, 0x1C50, 0xA620, 0xA8D0, 0xA900, 0xA9D0, 0xA9F0, 0xAA50, 0xABF0, 0xFF10, 0x104A0,
   0x10D30, 0x11066, 0x110F0, 0x11136, 0x111D0, 0x112F0, 0x11450, 0x114D0, 0x11650, 0x116C0,
   0x11730, 0x118E0, 0x11950, 0x11C50, 0x11D50, 0x11DA0, 0x16A60, 0x16AC0, 0x16B50, 0x1D7CE,
   0x1D7D8, 0x1D7E2, 0x1D7EC, 0x1D7F6, 0x1E140, 0x1E2F0, 0x1E950, 0x1FBF0]

/-- The distance of `n` from the zero whose run of ten it lies in. -/
def digitValueFrom? : List Nat → Nat → Option Nat
  | [], _ => none
  | z :: zs, n => if n < z then none else if n < z + 10 then some (n - z) else digitValueFrom? zs n

/-- The value of a decimal digit of any script. -/
def digitValue? (c : Char) : Option Nat := digitValueFrom? digitZeros c.toNat

/-- Whether the character is a decimal digit of some script. -/
def isDigit (c : Char) : Bool := (digitValue? c).isSome

theorem lt_ten_of_digitValueFrom? {n v : Nat} : ∀ {zs : List Nat},
    digitValueFrom? zs n = some v → v < 10
  | [], h => by simp [digitValueFrom?] at h
  | z :: zs, h => by
    simp only [digitValueFrom?] at h
    split at h
    · contradiction
    · split at h
      · cases h; omega
      · exact lt_ten_of_digitValueFrom? h

/-- A digit's value is below ten. -/
theorem lt_ten_of_digitValue? {c : Char} {v : Nat} (h : digitValue? c = some v) : v < 10 :=
  lt_ten_of_digitValueFrom? h

/-- An ASCII digit has the distance from `0` for its value. -/
theorem digitValue?_of_isDigit {c : Char} (h : c.isDigit = true) :
    digitValue? c = some (c.toNat - 0x30) := by
  delta Char.isDigit at h
  simp only [Bool.and_eq_true, decide_eq_true_eq, ge_iff_le, UInt32.le_iff_toNat_le] at h
  have h₁ : 0x30 ≤ c.toNat := h.1
  have h₂ : c.toNat ≤ 0x39 := h.2
  simp only [digitValue?, digitZeros, digitValueFrom?]
  rw [if_neg (by omega), if_pos (by omega)]

end Text

end SpliceLisp
