/-
# Text

A `Text` is the list of its characters, so that reading, printing and
replacing are recursions on a list. Columns and lengths count characters.

Key definitions: `Text`, `Text.same`, `Text.trim`, `Text.mentions`,
`Text.replaceAll`, `Text.splitOn`, `Text.sorted`.
Key theorems: `Text.intercalate_splitOn`, `Text.mentions_iff`,
`Text.replaceFrom_of_not_mentions`, `Text.pairwise_sorted`.
-/

namespace SpliceLisp

/-- A text is the list of its characters. -/
abbrev Text := List Char

instance : Coe String Text := ⟨String.toList⟩

namespace Text

/-- Whether two texts are the same, character by character. -/
def same : Text → Text → Bool
  | [], [] => true
  | c :: cs, d :: ds => c == d && same cs ds
  | _, _ => false

@[simp] theorem same_iff : ∀ {s t : Text}, same s t = true ↔ s = t
  | [], [] => by simp [same]
  | [], _ :: _ => by simp [same]
  | _ :: _, [] => by simp [same]
  | c :: cs, d :: ds => by simp [same, same_iff]

/-- The text without the characters of the class `p` at its two ends. -/
def trim (p : Char → Bool) (t : Text) : Text :=
  ((t.dropWhile p).reverse.dropWhile p).reverse

/-- The pieces of the text between the occurrences of `mark`: one more than
there are marks. -/
def splitOn (mark : Char) : Text → List Text
  | [] => [[]]
  | c :: cs =>
    if c = mark then [] :: splitOn mark cs
    else match splitOn mark cs with
      | [] => [[c]]
      | piece :: pieces => (c :: piece) :: pieces

theorem splitOn_ne_nil (mark : Char) : ∀ t : Text, splitOn mark t ≠ []
  | [] => by simp [splitOn]
  | c :: cs => by
    simp only [splitOn]
    split
    · simp
    · split <;> simp

theorem splitOn_append_cons {mark : Char} (after : Text) :
    ∀ before : Text, mark ∉ before →
      splitOn mark (before ++ mark :: after) = before :: splitOn mark after
  | [], _ => by simp [splitOn]
  | c :: cs, h => by
    simp only [List.mem_cons, not_or] at h
    simp [splitOn, Ne.symm h.1, splitOn_append_cons after cs h.2]

/-- The pieces with the marks put back between them are the text. -/
theorem intercalate_splitOn (mark : Char) : ∀ t : Text, [mark].intercalate (splitOn mark t) = t
  | [] => rfl
  | c :: cs => by
    have ih := intercalate_splitOn mark cs
    cases h : splitOn mark cs with
    | nil => exact absurd h (splitOn_ne_nil mark cs)
    | cons piece pieces =>
      rw [h] at ih
      by_cases hc : c = mark
      · simp only [splitOn, hc, if_true, h]
        simpa [List.intercalate] using ih
      · simp only [splitOn, hc, if_false, h]
        cases pieces <;> simpa [List.intercalate] using ih

/-! ### Occurrences of a word -/

/-- Whether `word` occurs somewhere in the text. -/
def mentions (word : Text) : Text → Bool
  | [] => word.isEmpty
  | c :: cs => word.isPrefixOf (c :: cs) || mentions word cs

/-- Every occurrence of a non-empty `word`, from the left and without overlap,
gives way to `put`. The first number counts the characters of an occurrence
that are still to be passed over. -/
def replaceFrom (word put : Text) : Nat → Text → Text
  | _, [] => []
  | passed + 1, _ :: cs => replaceFrom word put passed cs
  | 0, c :: cs =>
    if word.isPrefixOf (c :: cs) then put ++ replaceFrom word put (word.length - 1) cs
    else c :: replaceFrom word put 0 cs

/-- Every occurrence of `word` gives way to `put`, from the left and without
overlap. The empty word occurs before every character and at the end. -/
def replaceAll (word put t : Text) : Text :=
  if word.isEmpty then put ++ t.flatMap (fun c => c :: put) else replaceFrom word put 0 t

/-- A word occurs in a text when the text is that word between two others. -/
theorem mentions_iff {word : Text} : ∀ {t : Text}, mentions word t = true ↔ word <:+: t
  | [] => by simp [mentions]
  | c :: cs => by
    simp only [mentions, Bool.or_eq_true, List.isPrefixOf_iff_prefix, mentions_iff,
      List.infix_cons_iff]

theorem replaceAll_nil_left (put t : Text) :
    replaceAll [] put t = put ++ t.flatMap (fun c => c :: put) := rfl

/-- A word that does not occur leaves the text as it is. -/
theorem replaceFrom_of_not_mentions {word put : Text} :
    ∀ t : Text, mentions word t = false → replaceFrom word put 0 t = t
  | [], _ => rfl
  | c :: cs, h => by
    simp only [mentions, Bool.or_eq_false_iff] at h
    simp only [replaceFrom, h.1]
    simp [replaceFrom_of_not_mentions cs h.2]

/-! ### Order -/

/-- Order of texts by code points, a proper beginning first. -/
def precedes : Text → Text → Bool
  | [], _ => true
  | _ :: _, [] => false
  | c :: cs, d :: ds => if c = d then precedes cs ds else decide (c.toNat < d.toNat)

def sorted (ts : List Text) : List Text := ts.mergeSort precedes

theorem precedes_total : ∀ s t : Text, (precedes s t || precedes t s) = true
  | [], _ => by simp [precedes]
  | _ :: _, [] => by simp [precedes]
  | c :: cs, d :: ds => by
    by_cases h : c = d
    · simpa [precedes, h] using precedes_total cs ds
    · have hn : c.toNat ≠ d.toNat := fun e => h (Char.toNat_inj.1 e)
      simp only [precedes, h, Ne.symm h, if_false, Bool.or_eq_true, decide_eq_true_eq]
      omega

theorem precedes_trans :
    ∀ r s t : Text, precedes r s = true → precedes s t = true → precedes r t = true
  | [], _, _, _, _ => by simp [precedes]
  | _ :: _, [], _, h, _ => by simp [precedes] at h
  | _ :: _, _ :: _, [], _, h => by simp [precedes] at h
  | b :: bs, c :: cs, d :: ds, h₁, h₂ => by
    by_cases hbc : b = c
    · subst hbc
      by_cases hbd : b = d
      · subst hbd
        simp only [precedes, if_true] at h₁ h₂ ⊢
        exact precedes_trans bs cs ds h₁ h₂
      · simpa [precedes, hbd] using h₂
    · by_cases hcd : c = d
      · subst hcd
        simpa [precedes, hbc] using h₁
      · simp only [precedes, hbc, hcd, if_false, decide_eq_true_eq] at h₁ h₂
        have hbd : b ≠ d := fun e => by subst e; omega
        simp only [precedes, hbd, if_false, decide_eq_true_eq]
        omega

theorem perm_sorted (ts : List Text) : (sorted ts).Perm ts := List.mergeSort_perm ts precedes

/-- No text comes after one that it precedes. -/
theorem pairwise_sorted (ts : List Text) :
    (sorted ts).Pairwise fun s t => precedes s t = true :=
  List.pairwise_mergeSort precedes_trans precedes_total ts

end Text

end SpliceLisp
