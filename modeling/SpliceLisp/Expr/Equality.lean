/-
# Equality of expressions

Two expressions are equal *in the language* when they have the same variants,
texts and list shapes throughout, and hold no procedure: a procedure is equal to
nothing, not even to itself. Identity, which `=` decides, knows no such
exception.

Key definitions: `Expr.same`, `Expr.distinct`, `Expr.identical`.
Key theorems: `Expr.identical_iff`.
-/
import SpliceLisp.Expr.Basic

namespace SpliceLisp

namespace Expr

mutual

/-- Whether two expressions are equal. -/
def same : Expr → Expr → Bool
  | num s, num t => s = t
  | str s, str t => s = t
  | sym s, sym t => s = t
  | quote s, quote t => s = t
  | list es, list fs => sameAll es fs
  | _, _ => false

/-- Whether two lists have the same length and equal expressions at the same
places. -/
def sameAll : List Expr → List Expr → Bool
  | [], [] => true
  | e :: es, f :: fs => same e f && sameAll es fs
  | _, _ => false

end

mutual

/-- Whether two expressions are one and the same. -/
def identical : Expr → Expr → Bool
  | num s, num t => s = t
  | str s, str t => s = t
  | sym s, sym t => s = t
  | quote s, quote t => s = t
  | func p, func q => p = q
  | list es, list fs => identicalAll es fs
  | _, _ => false

/-- Whether two lists have the same length and the same expressions at the same
places. -/
def identicalAll : List Expr → List Expr → Bool
  | [], [] => true
  | e :: es, f :: fs => identical e f && identicalAll es fs
  | _, _ => false

end

mutual

theorem identical_self : ∀ e : Expr, identical e e = true
  | num _ | str _ | sym _ | quote _ | func _ => by simp [identical]
  | list es => by simp [identical, identicalAll_self es]

theorem identicalAll_self : ∀ es : List Expr, identicalAll es es = true
  | [] => rfl
  | e :: es => by simp [identicalAll, identical_self e, identicalAll_self es]

end

mutual

theorem eq_of_identical : ∀ {e f : Expr}, identical e f = true → e = f
  | num _, f, h | str _, f, h | sym _, f, h | quote _, f, h | func _, f, h => by
    cases f <;> simp_all [identical]
  | list es, f, h => by
    cases f with
    | list fs => simp only [identical] at h; rw [eq_of_identicalAll h]
    | _ => simp [identical] at h

theorem eq_of_identicalAll : ∀ {es fs : List Expr}, identicalAll es fs = true → es = fs
  | [], fs, h => by cases fs <;> simp_all [identicalAll]
  | e :: es, fs, h => by
    cases fs with
    | nil => simp [identicalAll] at h
    | cons f fs =>
      simp only [identicalAll, Bool.and_eq_true] at h
      rw [eq_of_identical h.1, eq_of_identicalAll h.2]

end

theorem identical_iff {e f : Expr} : identical e f = true ↔ e = f :=
  ⟨eq_of_identical, fun h => h ▸ identical_self e⟩

instance : DecidableEq Expr := fun _ _ => decidable_of_iff _ identical_iff

/-- The expressions that equal no earlier one, in order. The first argument
holds those already kept. -/
def distinctFrom (kept : List Expr) : List Expr → List Expr
  | [] => []
  | e :: es =>
    if kept.any (same e) then distinctFrom kept es else e :: distinctFrom (e :: kept) es

/-- The first of each class of equal expressions, in order. -/
def distinct (es : List Expr) : List Expr := distinctFrom [] es

end Expr

end SpliceLisp
