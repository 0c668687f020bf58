/-
# One text after another

A text that can be read as a whole may have another one behind it, with a blank
between them: the expressions of the whole are those of the first text and those of
the second, and the whole ends or fails as the second does, with the column of a
character that cannot stand counted from the beginning of the whole
(`Expr.readAll_append`).

Two things make it so. The pass over the characters does not depend on the column at
which a text begins, but for the columns that it notes (`Lexeme.scanFrom_shifted`),
and a delimiter behind a text that can be cut leaves the pass between two lexemes, as
it is at the beginning (`Lexeme.scan_append`). The reader then finds the lexemes of
the first text to be a program, behind which nothing is open, and it looks at no
column.

Key definitions: `Fault.shifted`, `Lexeme.shifted`, `Lexeme.State.shifted`.
Key theorems: `Lexeme.scanFrom_shifted`, `Lexeme.scan_append`, `Expr.readAll_append`.
-/
import Mathlib
import SpliceLisp.Proofs.Completion

namespace SpliceLisp

/-! ### Columns that move -/

/-- The fault of a text behind so many more characters. -/
def Fault.shifted (n : Nat) : Fault → Fault
  | unexpectedChar c column => unexpectedChar c (column + n)
  | f => f

theorem Fault.shifted_of_endOfInput (n : Nat) {f : Fault} (h : f.kind = .endOfInput) :
    f.shifted n = f := by
  cases f with
  | unexpectedChar c column => cases h
  | _ => rfl

namespace Lexeme

open Text

/-- The lexeme behind so many more characters. -/
def shifted (n : Nat) (l : Lexeme) : Lexeme := { l with column := l.column + n }

namespace State

/-- The state behind so many more characters. -/
def shifted (n : Nat) : State → State
  | between => between
  | sign start c => sign (start + n) c
  | integer start seen => integer (start + n) seen
  | fraction start seen => fraction (start + n) seen
  | symbol start seen => symbol (start + n) seen
  | string start seen => string (start + n) seen

variable (n column : Nat) (c : Char)

theorem pending_shifted (s : State) : (s.shifted n).pending = s.pending.map (Lexeme.shifted n) := by
  cases s <;> rfl

theorem endFault_shifted (s : State) : (s.shifted n).endFault = s.endFault.map (Fault.shifted n) := by
  cases s <;> rfl

theorem begin_shifted : begin (column + n) c =
    (begin column c).map fun p => (p.1.map (Lexeme.shifted n), p.2.shifted n) := by
  unfold begin
  split_ifs <;> rfl

theorem leave_shifted (s : State) : (s.shifted n).leave (column + n) c =
    (s.leave column c).map fun p => (p.1.map (Lexeme.shifted n), p.2.shifted n) := by
  unfold leave
  split
  · rw [begin_shifted, pending_shifted, Option.map_map, Option.map_map]
    simp only [Function.comp_def, List.map_append]
  · rfl

/-- A step does not depend on where the text begins. -/
theorem step_shifted (s : State) : (s.shifted n).step (column + n) c =
    (s.step column c).map fun p => (p.1.map (Lexeme.shifted n), p.2.shifted n) := by
  cases s with
  | between => exact begin_shifted n column c
  | sign start d =>
    simp only [step, shifted]
    split
    · rfl
    · exact leave_shifted n column c (sign start d)
  | integer start seen =>
    simp only [step, shifted]
    split
    · rfl
    split
    · rfl
    · exact leave_shifted n column c (integer start seen)
  | fraction start seen =>
    simp only [step, shifted]
    split
    · rfl
    · exact leave_shifted n column c (fraction start seen)
  | symbol start seen =>
    simp only [step, shifted]
    split
    · rfl
    · exact leave_shifted n column c (symbol start seen)
  | string start seen =>
    simp only [step, shifted]
    split <;> rfl

end State

/-- Neither does a pass. -/
theorem scanFrom_shifted (n : Nat) : ∀ (t : Text) (s : State) (column : Nat),
    scanFrom (s.shifted n) (column + n) t =
      ⟨(scanFrom s column t).lexemes.map (shifted n), (scanFrom s column t).fault.map (Fault.shifted n)⟩
  | [], s, _ => by rw [scanFrom, scanFrom, s.pending_shifted, s.endFault_shifted]
  | c :: cs, s, column => by
    cases hstep : s.step column c with
    | none =>
      have hstop : (s.shifted n).step (column + n) c = none := by
        rw [State.step_shifted, hstep, Option.map_none]
      rw [scanFrom, scanFrom, hstep, hstop]
      rfl
    | some now =>
      obtain ⟨out, next⟩ := now
      have hon : (s.shifted n).step (column + n) c = some (out.map (shifted n), next.shifted n) := by
        rw [State.step_shifted, hstep, Option.map_some]
      rw [scanFrom_cons cs hstep, scanFrom_cons cs hon, Nat.add_right_comm,
        scanFrom_shifted n cs next (column + 1)]
      simp [after]

theorem scanFrom_between (column : Nat) (t : Text) : scanFrom .between column t =
    ⟨(scan t).lexemes.map (shifted column), (scan t).fault.map (Fault.shifted column)⟩ := by
  have hshifted := scanFrom_shifted column t .between 0
  rwa [Nat.zero_add] at hshifted

/-- Behind a text that can be cut and a delimiter, any text is cut as by itself. -/
theorem scan_append {s t : Text} (hs : (scan s).fault = none) (ht : Delimited t) :
    scan (s ++ t) = after (scan s).lexemes (scanFrom .between s.length t) := by
  rcases passes_or_stuck s .between 0 with
    ⟨ls, next, hpass⟩ | ⟨pre, c, post, ls, next, rfl, hpass, hc⟩
  · have hend : scan s = ⟨ls ++ next.pending, next.endFault⟩ := hpass.scanFrom
    have hnext : next.endFault = none := by rwa [hend] at hs
    rw [hend, scan, hpass.scanFrom_append, Nat.zero_add, scanFrom_leave ht hnext fun c hc =>
      State.step_of_isDelimiter hnext hc s.length, after_after]
  · rw [scan, hpass.scanFrom_stuck hc] at hs
    cases hs

end Lexeme

/-! ### Reading on -/

namespace Reader

theorem readFrom_shifted (n : Nat) : ∀ (ls : List Lexeme) (frames : List Frame),
    readFrom frames (ls.map (Lexeme.shifted n)) = readFrom frames ls
  | [], _ => rfl
  | l :: ls, frames => by
    have hstep : step frames (l.shifted n) = step frames l := rfl
    rw [List.map_cons, readFrom_cons, readFrom_cons, hstep, readFrom_shifted n ls]

theorem fault_readFrom_shifted (n : Nat) (ls : List Lexeme) :
    (readFrom [] ls).fault.map (Fault.shifted n) = (readFrom [] ls).fault := by
  cases hfault : (readFrom [] ls).fault with
  | none => rfl
  | some f => rw [Option.map_some, Fault.shifted_of_endOfInput n (kind_of_fault_readFrom hfault)]

end Reader

namespace Expr

theorem program_of_readAll {s : Text} {vs : List Expr} (h : readAll s = ⟨vs, none⟩) :
    (Lexeme.scan s).fault = none ∧ Program (Lexeme.scan s).lexemes vs := by
  have hscan : (Lexeme.scan s).fault = none := by
    cases hfault : (Lexeme.scan s).fault with
    | none => rfl
    | some f =>
      have hnone := congrArg Reading.fault h
      simp only [readAll, hfault] at hnone
      cases hnone
  exact ⟨hscan, ((readAll_iff_program hscan).1 vs).1 h⟩

/-- **Texts are read one after another.** Let a text be read as a whole, and let blanks
follow it, at least one, and then any text. The values of the whole are those of the
first text and behind them those of the second, and the whole ends, or fails, as the
second text does. Only the column of a character that cannot stand there is counted
from the beginning of the whole. -/
theorem readAll_append {s : Text} {vs : List Expr} (hs : readAll s = ⟨vs, none⟩) {w : Text}
    (hne : w ≠ []) (hw : ∀ c ∈ w, Text.isBlank c = true) (t : Text) :
    readAll (s ++ w ++ t) =
      ⟨vs ++ (readAll t).exprs, (readAll t).fault.map (Fault.shifted (s ++ w).length)⟩ := by
  obtain ⟨hcut, hprogram⟩ := program_of_readAll hs
  have hdelimited : Lexeme.Delimited (w ++ t) := by
    cases w with
    | nil => exact absurd rfl hne
    | cons c w => simp [Lexeme.Delimited, Lexeme.isDelimiter, hw c List.mem_cons_self]
  have hscan : Lexeme.scan (s ++ w ++ t) = Lexeme.after (Lexeme.scan s).lexemes
      ⟨(Lexeme.scan t).lexemes.map (Lexeme.shifted (s ++ w).length),
        (Lexeme.scan t).fault.map (Fault.shifted (s ++ w).length)⟩ := by
    rw [List.append_assoc, Lexeme.scan_append hcut hdelimited,
      Lexeme.scanFrom_blanks t s.length (List.all_eq_true.2 hw), Lexeme.scanFrom_between,
      List.length_append]
  have hread : Reader.readFrom [] (Lexeme.scan (s ++ w ++ t)).lexemes =
      ⟨vs ++ (Reader.readFrom [] (Lexeme.scan t).lexemes).exprs,
        (Reader.readFrom [] (Lexeme.scan t).lexemes).fault⟩ := by
    rw [hscan, Lexeme.lexemes_after, Reader.readFrom_program hprogram, Reader.readFrom_shifted]
  simp only [readAll, hread]
  rw [hscan, Lexeme.fault_after]
  cases (Lexeme.scan t).fault with
  | none => exact congrArg (Reading.mk _) (Reader.fault_readFrom_shifted _ _).symm
  | some f => rfl

/-- A parenthesis that nothing has opened ends the first text, and the second has a
character that cannot stand. -/
theorem readAll_append_wrong :
    let s : Text := "a '(b ) )"
    let w : Text := "\t\n"
    let t : Text := "(c ) \"d\" [e"
    (readAll s = ⟨[.sym "a", .quote "(b)"], none⟩ ∧ w ≠ [] ∧ ∀ c ∈ w, Text.isBlank c = true) ∧
      (readAll t).fault = some (.unexpectedChar '[' 9) ∧
      readAll (s ++ w ++ t) = ⟨[.sym "a", .quote "(b)", .list [.sym "c"], .str "\"d\""],
        some (.unexpectedChar '[' 20)⟩ := by
  intro s w t
  have hsame : ∀ {u : Text} {vs : List Expr} {f : Option Fault}, (readAll u).exprs = vs →
      (readAll u).fault = f → readAll u = ⟨vs, f⟩ := by
    rintro u _ _ rfl rfl
    rfl
  have hs : readAll s = ⟨[.sym "a", .quote "(b)"], none⟩ :=
    hsame (by decide +kernel) (by decide +kernel)
  have ht : readAll t = ⟨[.list [.sym "c"], .str "\"d\""], some (.unexpectedChar '[' 9)⟩ :=
    hsame (by decide +kernel) (by decide +kernel)
  have hw : ∀ c ∈ w, Text.isBlank c = true :=
    List.all_eq_true.1 (show w.all Text.isBlank = true by decide +kernel)
  have hne : w ≠ [] := by decide
  have hlength : (s ++ w).length = 11 := by decide +kernel
  refine ⟨⟨hs, hne, hw⟩, by rw [ht], ?_⟩
  have happend := readAll_append hs hne hw t
  rwa [ht, hlength] at happend

end Expr

end SpliceLisp
