/-
# The lines of the history file

Writing the history puts every entry on lines of its own, as many as it has pieces
between newlines, and keeps the last lines (`History.toFile_eq`). An entry that comes
from a file is one line (`History.not_mem_of_mem_found`), and so is one that was typed
without a newline. Lines in a file are found again as they are, unless there is
something in them that reading leaves out (`History.found_ofLines`).

Key theorems: `History.toFile_eq`, `History.not_mem_of_mem_found`,
`History.found_ofLines`.
-/
import Mathlib.Data.List.DropRight
import Mathlib.Data.List.TakeWhile
import SpliceLisp.History
import SpliceLisp.Text.Blank

namespace SpliceLisp

/-! ### Pieces of a text -/

namespace Text

theorem splitOn_eq (mark : Char) : ∀ t : Text, splitOn mark t = List.splitOn mark t
  | [] => (List.splitOn_nil mark).symm
  | c :: cs => by
    have ih := splitOn_eq mark cs
    rw [List.splitOn_cons_eq_if_modifyHead, ← ih, splitOn]
    cases hcs : splitOn mark cs with
    | nil => exact absurd hcs (splitOn_ne_nil mark cs)
    | cons piece pieces => simp

theorem not_mem_of_mem_splitOn {mark : Char} : ∀ {t piece : Text},
    piece ∈ List.splitOn mark t → mark ∉ piece
  | [], piece, h => by
    rw [List.splitOn_nil] at h
    obtain rfl := List.mem_singleton.1 h
    exact List.not_mem_nil
  | c :: cs, piece, h => by
    obtain ⟨first, pieces, hcs⟩ := List.exists_cons_of_ne_nil (List.splitOn_ne_nil mark cs)
    have ih : ∀ {p}, p ∈ first :: pieces → mark ∉ p := fun hp =>
      not_mem_of_mem_splitOn (hcs ▸ hp)
    rw [List.splitOn_cons_eq_if_modifyHead, hcs] at h
    split at h
    · rcases List.mem_cons.1 h with rfl | h
      · exact List.not_mem_nil
      · exact ih h
    · next hc =>
      have hne : mark ≠ c := fun heq => hc (beq_iff_eq.2 heq.symm)
      rcases List.mem_cons.1 h with rfl | h
      · exact fun hmark => (List.mem_cons.1 hmark).elim hne (ih List.mem_cons_self)
      · exact ih (List.mem_cons_of_mem first h)

theorem mem_dropWhile_of_eq_false {p : Char → Bool} {c : Char} {t : Text} (h : c ∈ t)
    (hc : p c = false) : c ∈ t.dropWhile p := by
  rw [← List.takeWhile_append_dropWhile (p := p) (l := t)] at h
  refine (List.mem_append.1 h).resolve_left fun htaken => ?_
  rw [List.mem_takeWhile_imp htaken] at hc
  cases hc

theorem mem_strip_of_not_isBlank {c : Char} {t : Text} (h : c ∈ t) (hc : isBlank c = false) :
    c ∈ strip t := by
  rw [strip, trim, List.mem_reverse]
  exact mem_dropWhile_of_eq_false (List.mem_reverse.2 (mem_dropWhile_of_eq_false h hc)) hc

theorem mem_of_mem_strip {c : Char} {t : Text} (h : c ∈ strip t) : c ∈ t := by
  rw [strip, trim, List.mem_reverse] at h
  have h := List.mem_reverse.1 ((List.dropWhile_sublist _).subset h)
  exact (List.dropWhile_sublist _).subset h

end Text

/-! ### The file -/

namespace History

/-- The lines that a session finds: those of the file, and none if it cannot be
read. -/
def found : Except Problem Text → List Text
  | .ok contents => ofFile contents
  | .error _ => []

/-- A file keeps the last lines that the entries take up. -/
theorem toFile_eq (limit : Int) (entries : List Text) :
    toFile limit entries = ofLines (lastOf limit (entries.flatMap (List.splitOn '\n'))) := by
  have hlines : completeLines (ofLines entries) = entries.flatMap (List.splitOn '\n') := by
    induction entries with
    | nil => rfl
    | cons e es ih =>
      have hcons : ofLines (e :: es) = e ++ '\n' :: ofLines es := by
        simp [ofLines, List.append_assoc]
      rw [completeLines, Text.splitOn_eq] at ih ⊢
      rw [hcons, List.splitOn_append_cons_self,
        List.dropLast_append_of_ne_nil (List.splitOn_ne_nil '\n' _), ih, List.flatMap_cons]
  rw [toFile, hlines]

theorem lastOf_of_neg {α : Type} {limit : Int} (h : limit < 0) (l : List α) : lastOf limit l = l :=
  if_pos h

theorem lastOf_natCast {α : Type} (n : Nat) (l : List α) : lastOf n l = l.rtake n := by
  rw [lastOf, if_neg (by omega), Int.toNat_natCast]
  rfl

theorem flatMap_splitOn {entries : List Text} (h : ∀ e ∈ entries, '\n' ∉ e) :
    entries.flatMap (List.splitOn '\n') = entries := by
  induction entries with
  | nil => rfl
  | cons e es ih =>
    rw [List.flatMap_cons, List.splitOn_eq_singleton (h e List.mem_cons_self),
      ih fun d hd => h d (List.mem_cons_of_mem e hd)]
    rfl

/-- A line that is found holds no newline. -/
theorem not_mem_of_mem_found {contents : Except Problem Text} {line : Text}
    (h : line ∈ found contents) : '\n' ∉ line := by
  cases contents with
  | error _ => cases h
  | ok contents =>
    have hentry : line ∈ (completeLines contents).map fun whole =>
        untilNull (withoutReturn whole) := by
      simp only [found, ofFile] at h
      split at h
      · exact (List.mem_filter.1 (List.mem_filter.1 h).1).1
      · exact (List.mem_filter.1 h).1
    obtain ⟨whole, hwhole, rfl⟩ := List.mem_map.1 hentry
    have hpiece : '\n' ∉ whole := by
      rw [completeLines, Text.splitOn_eq] at hwhole
      exact Text.not_mem_of_mem_splitOn (List.dropLast_subset _ hwhole)
    intro hmem
    have hreturn : '\n' ∈ withoutReturn whole := (List.takeWhile_sublist _).subset hmem
    rw [withoutReturn] at hreturn
    split at hreturn
    · exact hpiece (List.dropLast_subset _ hreturn)
    · exact hpiece hreturn

/-- Nothing is left out of a line that ends in no carriage return and holds no null
character. -/
theorem untilNull_withoutReturn {line : Text} (hnull : '\x00' ∉ line)
    (hreturn : line.getLast? ≠ some '\r') : untilNull (withoutReturn line) = line := by
  rw [withoutReturn, if_neg hreturn, untilNull, List.takeWhile_eq_self_iff]
  intro c hc
  exact decide_eq_true fun h => hnull (h ▸ hc)

theorem isStamp_ofLines {lines : List Text} (hne : ∀ line ∈ lines, line ≠ [])
    (hstamp : ∀ c cs, lines.head? = some ('#' :: c :: cs) → c.isDigit = false) :
    isStamp (ofLines lines) = false := by
  cases lines with
  | nil => rfl
  | cons line lines =>
    obtain ⟨a, as, rfl⟩ := List.exists_cons_of_ne_nil (hne line List.mem_cons_self)
    cases as with
    | nil =>
      unfold isStamp
      split
      · next heq =>
        obtain ⟨-, rfl, -⟩ : _ ∧ _ ∧ _ := by simpa [ofLines] using heq
        rfl
      · rfl
    | cons c cs =>
      unfold isStamp
      split
      · next heq =>
        obtain ⟨rfl, rfl, -⟩ : _ ∧ _ ∧ _ := by simpa [ofLines] using heq
        exact hstamp _ cs rfl
      · rfl

/-- Lines that nothing is left out of are found as they are. -/
theorem found_ofLines {lines : List Text}
    (h : ∀ line ∈ lines, line ≠ [] ∧ '\n' ∉ line ∧ '\x00' ∉ line ∧ line.getLast? ≠ some '\r')
    (hstamp : ∀ c cs, lines.head? = some ('#' :: c :: cs) → c.isDigit = false) :
    found (.ok (ofLines lines)) = lines := by
  have hlines : completeLines (ofLines lines) = lines :=
    completeLines_ofLines lines fun line hline => (h line hline).2.1
  have hmap : (completeLines (ofLines lines)).map (fun line => untilNull (withoutReturn line)) =
      lines := by
    rw [hlines]
    refine (List.map_congr_left fun line hline => ?_).trans (List.map_id lines)
    exact untilNull_withoutReturn (h line hline).2.2.1 (h line hline).2.2.2
  have hfilter : lines.filter (fun line => !line.isEmpty) = lines :=
    List.filter_eq_self.2 fun line hline => by simpa using (h line hline).1
  have hno : isStamp (ofLines lines) = false :=
    isStamp_ofLines (fun line hline => (h line hline).1) hstamp
  rw [found, ofFile, hmap, hfilter, hno]
  rfl

end History

end SpliceLisp
