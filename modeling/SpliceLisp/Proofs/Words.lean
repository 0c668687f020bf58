/-
# Words and where they end

Each class of lexemes has a pattern (`Lexeme.Kind.admits`). A word of the
pattern, followed by a delimiter or the end of the text, is cut off as exactly
one lexeme of its class (`Lexeme.scanFrom_word`), and the lexemes that a pass
over any text finds match their patterns (`Lexeme.admits_scan`).

That no word runs into its delimiter rests on the classes of characters being
apart: no blank is a digit or continues a symbol (`Ranges.apart`).

Key definitions: `Lexeme.Kind.admits`, `Lexeme.Delimited`, `Lexeme.after`.
Key theorems: `Lexeme.scanFrom_word`, `Lexeme.scanFrom_string`,
`Lexeme.admits_scan`.
-/
import Mathlib.Data.List.TakeWhile
import Mathlib.Tactic
import SpliceLisp.Lexeme

namespace SpliceLisp

/-! ### Classes of characters that are apart -/

namespace Ranges

/-- Whether no code point is covered by both lists of ranges. -/
def apart (rs qs : Ranges) : Bool := rs.all fun r => qs.all fun q => decide (r.2 < q.1 ∨ q.2 < r.1)

theorem not_covers_of_apart {rs qs : Ranges} (hr : rs.increasing = true)
    (hq : qs.increasing = true) (h : rs.apart qs = true) {n : Nat} (hn : rs.covers n = true) :
    qs.covers n = false := by
  by_contra hc
  obtain ⟨r, hrm, hr1, hr2⟩ := (covers_iff hr).1 hn
  obtain ⟨q, hqm, hq1, hq2⟩ := (covers_iff hq).1 (Bool.eq_true_of_not_eq_false hc)
  have := of_decide_eq_true (List.all_eq_true.1 (List.all_eq_true.1 h r hrm) q hqm)
  omega

end Ranges

namespace Text

theorem not_isAlphanumeric_of_isBlank {c : Char} (h : isBlank c = true) :
    isAlphanumeric c = false :=
  Ranges.not_covers_of_apart increasing_blankRanges increasing_alphanumericRanges
    (by decide +kernel) h

/-- The runs of ten digits as ranges. -/
def digitRanges : Ranges := digitZeros.map fun z => (z, z + 9)

theorem covers_digitRanges {n : Nat} : ∀ {zs : List Nat}, (digitValueFrom? zs n).isSome = true →
    (Ranges.covers (zs.map fun z => (z, z + 9)) n) = true
  | [], h => by simp [digitValueFrom?] at h
  | z :: zs, h => by
    simp only [digitValueFrom?] at h
    by_cases h1 : n < z
    · simp [h1] at h
    · by_cases h2 : n < z + 10
      · simp only [List.map_cons, Ranges.covers, Bool.and_eq_true, Bool.or_eq_true,
          decide_eq_true_eq]
        exact ⟨by omega, Or.inl (by omega)⟩
      · rw [if_neg h1, if_neg h2] at h
        simp only [List.map_cons, Ranges.covers, Bool.and_eq_true, Bool.or_eq_true,
          decide_eq_true_eq]
        exact ⟨by omega, Or.inr (covers_digitRanges h)⟩

theorem not_isDigit_of_isBlank {c : Char} (h : isBlank c = true) : isDigit c = false := by
  by_contra hc
  have hd : digitRanges.covers c.toNat = true :=
    covers_digitRanges (Bool.eq_true_of_not_eq_false hc)
  have := Ranges.not_covers_of_apart (by decide +kernel) increasing_blankRanges
    (by decide +kernel) hd
  rw [isBlank, this] at h
  cases h

end Text

namespace Lexeme

open Text

theorem of_isDelimiter {c : Char} (h : isDelimiter c = true) :
    isDigit c = false ∧ continuesSymbol c = false ∧ c ≠ '.' ∧ c ≠ '-' := by
  simp only [isDelimiter, Bool.or_eq_true, decide_eq_true_eq] at h
  rcases h with (h | rfl) | rfl
  · have hne : ∀ d : Char, isBlank d = false → c ≠ d := fun d hd he => by
      rw [he, hd] at h; cases h
    refine ⟨not_isDigit_of_isBlank h, ?_, hne _ (by decide), hne _ (by decide)⟩
    simp [continuesSymbol, not_isAlphanumeric_of_isBlank h, hne '-' (by decide),
      hne '#' (by decide)]
  · decide +kernel
  · decide +kernel

theorem not_isDelimiter_of_isDigit {c : Char} (h : isDigit c = true) : isDelimiter c = false := by
  by_contra hc
  rw [(of_isDelimiter (by simpa using hc)).1] at h
  cases h

theorem not_isDelimiter_of_continuesSymbol {c : Char} (h : continuesSymbol c = true) :
    isDelimiter c = false := by
  by_contra hc
  rw [(of_isDelimiter (by simpa using hc)).2.1] at h
  cases h

theorem continuesSymbol_of_beginsSymbol {c : Char} (h : beginsSymbol c = true) :
    continuesSymbol c = true := by
  simp only [beginsSymbol, isLetter, Bool.or_eq_true, Bool.and_eq_true, decide_eq_true_eq] at h
  rcases h with h | h <;> simp [continuesSymbol, h]

/-! ### Patterns -/

/-- Whether the text is a row of digits with at most one point among or after
them. -/
def isUnsigned : Text → Bool
  | [] => false
  | c :: cs => isDigit c && match cs.dropWhile isDigit with
    | [] => true
    | p :: fs => p = '.' && fs.all isDigit

/-- Whether a lexeme of the class can have the text. -/
def Kind.admits : Kind → Text → Bool
  | .opening, t => t = ['(']
  | .closing, t => t = [')']
  | .quote, t => t = ['\'']
  | .string, t => match t with
    | c :: cs => c = '"' && cs.getLast? = some '"' && !(cs.dropLast.contains '"')
    | [] => false
  | .number, t => match t with
    | c :: cs => if c = '-' then isUnsigned cs else isUnsigned (c :: cs)
    | [] => false
  | .symbol, t => match t with
    | c :: cs => beginsSymbol c && cs.all continuesSymbol
    | [] => false
  | .special, t => match t with
    | [c] => c ∈ operators
    | _ => false

/-- What can stand behind the first digits of a number: more digits, and then a
point with any digits after it or nothing. -/
inductive NumberTail : Text → Prop
  | whole (ds : Text) : (∀ c ∈ ds, isDigit c = true) → NumberTail ds
  | point (ds fs : Text) : (∀ c ∈ ds, isDigit c = true) → (∀ c ∈ fs, isDigit c = true) →
      NumberTail (ds ++ '.' :: fs)

theorem isUnsigned_iff {t : Text} :
    isUnsigned t = true ↔ ∃ c cs, t = c :: cs ∧ isDigit c = true ∧ NumberTail cs := by
  constructor
  · intro h
    cases t with
    | nil => cases h
    | cons c cs =>
      simp only [isUnsigned, Bool.and_eq_true] at h
      have hds : ∀ d ∈ cs.takeWhile isDigit, isDigit d = true := fun d hd => List.mem_takeWhile_imp hd
      refine ⟨c, cs, rfl, h.1, ?_⟩
      rw [← List.takeWhile_append_dropWhile (p := isDigit) (l := cs)]
      cases hrest : cs.dropWhile isDigit with
      | nil => simpa using NumberTail.whole _ hds
      | cons p fs =>
        have h2 := h.2
        rw [hrest] at h2
        simp only [Bool.and_eq_true, decide_eq_true_eq] at h2
        rw [h2.1]
        exact NumberTail.point _ fs hds (List.all_eq_true.1 h2.2)
  · rintro ⟨c, cs, rfl, hc, hcs⟩
    simp only [isUnsigned, hc, Bool.true_and]
    cases hcs with
    | whole _ hds => rw [List.dropWhile_eq_nil_iff.2 hds]
    | point ds fs hds hfs =>
      rw [List.dropWhile_append_of_pos hds, List.dropWhile_cons_of_neg (by decide)]
      simpa using hfs

theorem admits_string_iff {t : Text} :
    Kind.admits .string t = true ↔ ∃ s : Text, '"' ∉ s ∧ t = '"' :: s ++ ['"'] := by
  constructor
  · intro h
    cases t with
    | nil => cases h
    | cons c cs =>
      simp only [Kind.admits, Bool.and_eq_true, decide_eq_true_eq, Bool.not_eq_true'] at h
      refine ⟨cs.dropLast, by simpa using h.2, ?_⟩
      rw [h.1.1, List.cons_append, List.dropLast_append_getLast? _ h.1.2]
  · rintro ⟨s, hs, rfl⟩
    simpa [Kind.admits] using hs

theorem admits_number_iff {t : Text} : Kind.admits .number t = true ↔
    ∃ c cs, isDigit c = true ∧ NumberTail cs ∧ (t = c :: cs ∨ t = '-' :: c :: cs) := by
  have hminus : isDigit '-' = false := by decide
  constructor
  · intro h
    cases t with
    | nil => cases h
    | cons a as =>
      simp only [Kind.admits] at h
      split at h
      · next ha =>
        obtain ⟨c, cs, rfl, hc, hcs⟩ := isUnsigned_iff.1 h
        exact ⟨c, cs, hc, hcs, Or.inr (by rw [ha])⟩
      · obtain ⟨c, cs, he, hc, hcs⟩ := isUnsigned_iff.1 h
        exact ⟨c, cs, hc, hcs, Or.inl he⟩
  · rintro ⟨c, cs, hc, hcs, rfl | rfl⟩
    · have hne : c ≠ '-' := fun he => by rw [he, hminus] at hc; cases hc
      simpa [Kind.admits, hne] using isUnsigned_iff.2 ⟨c, cs, rfl, hc, hcs⟩
    · simpa [Kind.admits] using isUnsigned_iff.2 ⟨c, cs, rfl, hc, hcs⟩

example : Kind.admits .number ['-', '1', '.'] = true ∧ Kind.admits .number ['-'] = false ∧
    Kind.admits .symbol ['#', 't'] = true ∧ Kind.admits .string ['"', '(', '"'] = true := by
  decide +kernel

/-! ### A word and its delimiter -/

/-- Whether the text is empty or begins with a delimiter. -/
def Delimited : Text → Prop
  | [] => True
  | c :: _ => isDelimiter c = true

/-- A scan with lexemes put before those it has. -/
def after (ls : List Lexeme) (s : Scan) : Scan := ⟨ls ++ s.lexemes, s.fault⟩

@[simp] theorem lexemes_after (ls : List Lexeme) (s : Scan) :
    (after ls s).lexemes = ls ++ s.lexemes := rfl

@[simp] theorem fault_after (ls : List Lexeme) (s : Scan) : (after ls s).fault = s.fault := rfl

@[simp] theorem after_after (ls ms : List Lexeme) (s : Scan) :
    after ls (after ms s) = after (ls ++ ms) s := by
  simp [after]

@[simp] theorem after_nil (s : Scan) : after [] s = s := rfl

theorem scanFrom_cons {s next : State} {out : List Lexeme} {column : Nat} {c : Char} (cs : Text)
    (h : s.step column c = some (out, next)) :
    scanFrom s column (c :: cs) = after out (scanFrom next (column + 1) cs) := by
  simp [scanFrom, h, after]

theorem begin_isSome_of_isDelimiter {c : Char} (column : Nat) (h : isDelimiter c = true) :
    ∃ next, State.begin column c = some next := by
  simp only [isDelimiter, Bool.or_eq_true, decide_eq_true_eq] at h
  unfold State.begin
  rcases h with (h | rfl) | rfl
  · simp [h]
  · split <;> simp
  · split <;> simp

theorem scanFrom_leave {s : State} {column : Nat} {rest : Text} (hr : Delimited rest)
    (hend : s.endFault = none)
    (hs : ∀ c, isDelimiter c = true → s.step column c = s.leave column c) :
    scanFrom s column rest = after s.pending (scanFrom .between column rest) := by
  cases rest with
  | nil => rw [scanFrom, hend]; simp [scanFrom, after, State.pending, State.endFault]
  | cons c cs =>
    obtain ⟨⟨out, next⟩, hb⟩ := begin_isSome_of_isDelimiter column hr
    have hleave : s.step column c = some (s.pending ++ out, next) := by
      rw [hs c hr]
      simp [State.leave, show isDelimiter c = true from hr, hb]
    rw [scanFrom_cons cs hleave, scanFrom_cons cs (show State.step .between column c = _ from hb)]
    simp [after]

theorem scanFrom_digits {start : Nat} {seen : Text} : ∀ {ds rest : Text} {column : Nat},
    (∀ c ∈ ds, isDigit c = true) →
      scanFrom (.integer start seen) column (ds ++ rest) =
        scanFrom (.integer start (ds.reverse ++ seen)) (column + ds.length) rest
  | [], rest, column, _ => rfl
  | d :: ds, rest, column, h => by
    have hstep : (State.integer start seen).step column d = some ([], .integer start (d :: seen)) := by
      simp [State.step, h d (by simp)]
    rw [List.cons_append, scanFrom_cons _ hstep, after_nil,
      scanFrom_digits fun c hc => h c (by simp [hc])]
    simp [Nat.add_assoc, Nat.add_comm 1]

theorem scanFrom_places {start : Nat} {seen : Text} : ∀ {ds rest : Text} {column : Nat},
    (∀ c ∈ ds, isDigit c = true) →
      scanFrom (.fraction start seen) column (ds ++ rest) =
        scanFrom (.fraction start (ds.reverse ++ seen)) (column + ds.length) rest
  | [], rest, column, _ => rfl
  | d :: ds, rest, column, h => by
    have hstep : (State.fraction start seen).step column d =
        some ([], .fraction start (d :: seen)) := by
      simp [State.step, h d (by simp)]
    rw [List.cons_append, scanFrom_cons _ hstep, after_nil,
      scanFrom_places fun c hc => h c (by simp [hc])]
    simp [Nat.add_assoc, Nat.add_comm 1]

theorem scanFrom_letters {start : Nat} {seen : Text} : ∀ {cs rest : Text} {column : Nat},
    (∀ c ∈ cs, continuesSymbol c = true) →
      scanFrom (.symbol start seen) column (cs ++ rest) =
        scanFrom (.symbol start (cs.reverse ++ seen)) (column + cs.length) rest
  | [], rest, column, _ => rfl
  | d :: ds, rest, column, h => by
    have hstep : (State.symbol start seen).step column d = some ([], .symbol start (d :: seen)) := by
      simp [State.step, h d (by simp)]
    rw [List.cons_append, scanFrom_cons _ hstep, after_nil,
      scanFrom_letters fun c hc => h c (by simp [hc])]
    simp [Nat.add_assoc, Nat.add_comm 1]

theorem scanFrom_quoted {start : Nat} {seen : Text} : ∀ {cs rest : Text} {column : Nat},
    '"' ∉ cs →
      scanFrom (.string start seen) column (cs ++ rest) =
        scanFrom (.string start (cs.reverse ++ seen)) (column + cs.length) rest
  | [], rest, column, _ => rfl
  | d :: ds, rest, column, h => by
    simp only [List.mem_cons, not_or] at h
    have hstep : (State.string start seen).step column d = some ([], .string start (d :: seen)) := by
      simp [State.step, Ne.symm h.1]
    rw [List.cons_append, scanFrom_cons _ hstep, after_nil, scanFrom_quoted h.2]
    simp [Nat.add_assoc, Nat.add_comm 1]

/-- The words that a delimiter has to follow: numbers, symbols and operators. -/
def Kind.isAtom : Kind → Bool
  | .number | .symbol | .special => true
  | _ => false

theorem step_between_digit {c : Char} (column : Nat) (h : isDigit c = true) :
    State.step .between column c = some ([], .integer column [c]) := by
  have hd := not_isDelimiter_of_isDigit h
  simp only [isDelimiter, Bool.or_eq_false_iff, decide_eq_false_iff_not] at hd
  have hq : c ≠ '\'' ∧ c ≠ '"' := by
    constructor <;> (rintro rfl; revert h; decide)
  simp [State.step, State.begin, hd, hq, h]

theorem step_between_letter {c : Char} (column : Nat) (h : beginsSymbol c = true) :
    State.step .between column c = some ([], .symbol column [c]) := by
  have hd := not_isDelimiter_of_continuesSymbol (continuesSymbol_of_beginsSymbol h)
  simp only [isDelimiter, Bool.or_eq_false_iff, decide_eq_false_iff_not] at hd
  have hq : c ≠ '\'' ∧ c ≠ '"' := by
    constructor <;> (rintro rfl; revert h; decide +kernel)
  have hdigit : isDigit c = false := by
    simp only [beginsSymbol, isLetter, Bool.or_eq_true, Bool.and_eq_true, Bool.not_eq_true',
      decide_eq_true_eq] at h
    rcases h with h | rfl
    · exact h.2
    · decide
  simp [State.step, State.begin, hd, hq, hdigit, h]

theorem step_between_operator {c : Char} (column : Nat) (h : c ∈ operators) :
    State.step .between column c = some ([], .sign column c) := by
  have hall : operators.all (fun d => !(isBlank d || isDigit d || beginsSymbol d || d == '(' ||
      d == ')' || d == '\'' || d == '"')) = true := by decide +kernel
  have hc := List.all_eq_true.1 hall c h
  simp only [Bool.not_eq_true', Bool.or_eq_false_iff, beq_eq_false_iff_ne] at hc
  obtain ⟨⟨⟨⟨⟨⟨h1, h2⟩, h3⟩, h4⟩, h5⟩, h6⟩, h7⟩ := hc
  simp [State.step, State.begin, h1, h2, h3, h4, h5, h6, h7, h]

theorem scanFrom_numberTail {start column : Nat} {seen tail rest : Text} (ht : NumberTail tail)
    (hr : Delimited rest) :
    scanFrom (.integer start seen) column (tail ++ rest) =
      after [⟨.number, seen.reverse ++ tail, start⟩]
        (scanFrom .between (column + tail.length) rest) := by
  cases ht with
  | whole _ hds =>
    rw [scanFrom_digits hds, scanFrom_leave hr rfl]
    · simp [State.pending]
    · intro c hc
      obtain ⟨h1, -, h2, -⟩ := of_isDelimiter hc
      simp [State.step, h1, h2]
  | point ds fs hds hfs =>
    have hstep : (State.integer start (ds.reverse ++ seen)).step (column + ds.length) '.' =
        some ([], .fraction start ('.' :: (ds.reverse ++ seen))) := by
      simp [State.step, show isDigit '.' = false by decide]
    rw [List.append_assoc, scanFrom_digits hds, List.cons_append, scanFrom_cons _ hstep, after_nil,
      scanFrom_places hfs, scanFrom_leave hr rfl]
    · simp [State.pending, Nat.add_assoc, Nat.add_comm 1]
    · intro c hc
      simp [State.step, (of_isDelimiter hc).1]

/-- A word before a delimiter or the end is one lexeme. -/
theorem scanFrom_word {k : Kind} (hk : k.isAtom = true) {w rest : Text} (hw : k.admits w = true)
    (hr : Delimited rest) (column : Nat) :
    scanFrom .between column (w ++ rest) =
      after [⟨k, w, column⟩] (scanFrom .between (column + w.length) rest) := by
  cases k with
  | number =>
    obtain ⟨c, cs, hc, hcs, rfl | rfl⟩ := admits_number_iff.1 hw
    · rw [List.cons_append, scanFrom_cons _ (step_between_digit column hc), after_nil,
        scanFrom_numberTail hcs hr]
      simp [Nat.add_assoc, Nat.add_comm 1]
    · have hstep : (State.sign column '-').step (column + 1) c =
          some ([], .integer column [c, '-']) := by simp [State.step, hc]
      rw [List.cons_append, scanFrom_cons _ (step_between_operator (c := '-') column (by decide)), after_nil,
        List.cons_append, scanFrom_cons _ hstep, after_nil, scanFrom_numberTail hcs hr]
      simp [Nat.add_assoc, Nat.add_comm 2]
  | symbol =>
    cases w with
    | nil => cases hw
    | cons c cs =>
      simp only [Kind.admits, Bool.and_eq_true, List.all_eq_true] at hw
      rw [List.cons_append, scanFrom_cons _ (step_between_letter column hw.1), after_nil,
        scanFrom_letters hw.2, scanFrom_leave hr rfl]
      · simp [State.pending, Nat.add_assoc, Nat.add_comm 1]
      · intro d hd
        simp [State.step, (of_isDelimiter hd).2.1]
  | special =>
    match w, hw with
    | [c], hw =>
      have hc : c ∈ operators := by simpa [Kind.admits] using hw
      rw [List.cons_append, scanFrom_cons _ (step_between_operator column hc), after_nil,
        List.nil_append, scanFrom_leave hr rfl]
      · simp [State.pending]
      · intro d hd
        simp [State.step, (of_isDelimiter hd).1]
  | opening | closing | quote | string => cases hk

/-- A string is one lexeme, whatever follows it. -/
theorem scanFrom_string {w : Text} (hw : Kind.admits .string w = true) (rest : Text)
    (column : Nat) :
    scanFrom .between column (w ++ rest) =
      after [⟨.string, w, column⟩] (scanFrom .between (column + w.length) rest) := by
  obtain ⟨s, hs, rfl⟩ := admits_string_iff.1 hw
  have hbegin : State.step .between column '"' = some ([], .string column ['"']) := by
    simp [State.step, State.begin, show isBlank '"' = false by decide]
  have hend : (State.string column (s.reverse ++ ['"'])).step (column + 1 + s.length) '"' =
      some ([⟨.string, '"' :: s ++ ['"'], column⟩], .between) := by simp [State.step]
  rw [List.cons_append, List.cons_append, scanFrom_cons _ hbegin, after_nil, List.append_assoc,
    scanFrom_quoted hs, List.cons_append, scanFrom_cons _ hend]
  simp [Nat.add_assoc, Nat.add_comm 1]

theorem scanFrom_opening (rest : Text) (column : Nat) :
    scanFrom .between column ('(' :: rest) =
      after [⟨.opening, ['('], column⟩] (scanFrom .between (column + 1) rest) :=
  scanFrom_cons rest (by simp [State.step, State.begin, show isBlank '(' = false by decide])

theorem scanFrom_closing (rest : Text) (column : Nat) :
    scanFrom .between column (')' :: rest) =
      after [⟨.closing, [')'], column⟩] (scanFrom .between (column + 1) rest) :=
  scanFrom_cons rest (by simp [State.step, State.begin, show isBlank ')' = false by decide])

theorem scanFrom_mark (rest : Text) (column : Nat) :
    scanFrom .between column ('\'' :: rest) =
      after [⟨.quote, ['\''], column⟩] (scanFrom .between (column + 1) rest) :=
  scanFrom_cons rest (by simp [State.step, State.begin, show isBlank '\'' = false by decide])

theorem scanFrom_blank {c : Char} (h : isBlank c = true) (rest : Text) (column : Nat) :
    scanFrom .between column (c :: rest) = scanFrom .between (column + 1) rest := by
  have hstep : State.step .between column c = some ([], .between) := by
    simp [State.step, State.begin, h]
  rw [scanFrom_cons rest hstep, after_nil]

theorem scanFrom_blanks : ∀ {w : Text} (rest : Text) (column : Nat), w.all isBlank = true →
    scanFrom .between column (w ++ rest) = scanFrom .between (column + w.length) rest
  | [], _, _, _ => rfl
  | c :: cs, rest, column, h => by
    rw [List.all_cons, Bool.and_eq_true] at h
    rw [List.cons_append, scanFrom_blank h.1, scanFrom_blanks rest (column + 1) h.2,
      List.length_cons, Nat.add_assoc, Nat.add_comm 1]

/-! ### Every lexeme matches its pattern -/

/-- What the state keeps can still become a word, whatever fitting characters
come. -/
def State.Sound : State → Prop
  | .between => True
  | .sign _ c => c ∈ operators
  | .integer _ seen => ∀ t, NumberTail t → Kind.admits .number (seen.reverse ++ t) = true
  | .fraction _ seen => ∀ fs : Text, (∀ c ∈ fs, isDigit c = true) →
      Kind.admits .number (seen.reverse ++ fs) = true
  | .symbol _ seen => ∀ cs : Text, (∀ c ∈ cs, continuesSymbol c = true) →
      Kind.admits .symbol (seen.reverse ++ cs) = true
  | .string _ seen => ∀ s : Text, '"' ∉ s → Kind.admits .string (seen.reverse ++ s ++ ['"']) = true

theorem State.Sound.pending {s : State} (h : s.Sound) :
    ∀ l ∈ s.pending, l.kind.admits l.text = true := by
  intro l hl
  cases s with
  | between | string => simp [State.pending] at hl
  | sign _ c =>
    obtain rfl := List.mem_singleton.1 hl
    simpa [Kind.admits] using (show c ∈ operators from h)
  | integer start seen =>
    obtain rfl := List.mem_singleton.1 hl
    simpa using h [] (.whole [] (by simp))
  | fraction start seen =>
    obtain rfl := List.mem_singleton.1 hl
    simpa using h [] (by simp)
  | symbol start seen =>
    obtain rfl := List.mem_singleton.1 hl
    simpa using h [] (by simp)

theorem State.Sound.begin {column : Nat} {c : Char} {out : List Lexeme} {next : State}
    (h : State.begin column c = some (out, next)) :
    next.Sound ∧ ∀ l ∈ out, l.kind.admits l.text = true := by
  unfold State.begin at h
  split at h
  · cases h; simp [State.Sound]
  split at h
  · next hc => cases h; simp [State.Sound, Kind.admits, hc]
  split at h
  · next hc => cases h; simp [State.Sound, Kind.admits, hc]
  split at h
  · next hc => cases h; simp [State.Sound, Kind.admits, hc]
  split at h
  · next hc =>
    cases h
    exact ⟨fun s hs => admits_string_iff.2 ⟨s, hs, by simp [hc]⟩, by simp⟩
  split at h
  · next hc =>
    cases h
    exact ⟨fun t ht => admits_number_iff.2 ⟨c, t, hc, ht, Or.inl (by simp)⟩, by simp⟩
  split at h
  · next hc =>
    cases h
    exact ⟨fun cs hcs => by simpa [Kind.admits, hc] using hcs, by simp⟩
  split at h
  · next hc => cases h; exact ⟨hc, by simp⟩
  · cases h

theorem State.Sound.leave {s : State} (hs : s.Sound) {column : Nat} {c : Char}
    {out : List Lexeme} {next : State} (h : s.leave column c = some (out, next)) :
    next.Sound ∧ ∀ l ∈ out, l.kind.admits l.text = true := by
  unfold State.leave at h
  split at h
  · obtain ⟨⟨ls, t⟩, hb, he⟩ := Option.map_eq_some_iff.1 h
    cases he
    obtain ⟨h1, h2⟩ := State.Sound.begin hb
    refine ⟨h1, fun l hl => ?_⟩
    rcases List.mem_append.1 hl with hl | hl
    · exact hs.pending l hl
    · exact h2 l hl
  · cases h

/-- One character keeps what is under way a possible word, and what it
completes is one. -/
theorem State.Sound.step {s : State} (hs : s.Sound) {column : Nat} {c : Char}
    {out : List Lexeme} {next : State} (h : s.step column c = some (out, next)) :
    next.Sound ∧ ∀ l ∈ out, l.kind.admits l.text = true := by
  cases s with
  | between => exact State.Sound.begin h
  | sign start d =>
    simp only [State.step] at h
    split at h
    · next hc =>
      cases h
      exact ⟨fun t ht => admits_number_iff.2 ⟨c, t, hc.2, ht, Or.inr (by simp [hc.1])⟩, by simp⟩
    · exact hs.leave h
  | integer start seen =>
    simp only [State.step] at h
    split at h
    · next hc =>
      cases h
      refine ⟨fun t ht => ?_, by simp⟩
      have := hs (c :: t) (by
        cases ht with
        | whole _ hds => exact .whole _ (by simpa [hc] using hds)
        | point ds fs hds hfs => exact .point (c :: ds) fs (by simpa [hc] using hds) hfs)
      simpa using this
    · split at h
      · next hc =>
        cases h
        refine ⟨fun fs hfs => ?_, by simp⟩
        simpa [hc] using hs ('.' :: fs) (.point [] fs (by simp) hfs)
      · exact hs.leave h
  | fraction start seen =>
    simp only [State.step] at h
    split at h
    · next hc =>
      cases h
      refine ⟨fun fs hfs => ?_, by simp⟩
      simpa using hs (c :: fs) (by simpa [hc] using hfs)
    · exact hs.leave h
  | symbol start seen =>
    simp only [State.step] at h
    split at h
    · next hc =>
      cases h
      refine ⟨fun cs hcs => ?_, by simp⟩
      simpa using hs (c :: cs) (by simpa [hc] using hcs)
    · exact hs.leave h
  | string start seen =>
    simp only [State.step] at h
    split at h
    · next hc =>
      cases h
      refine ⟨trivial, fun l hl => ?_⟩
      obtain rfl := List.mem_singleton.1 hl
      simpa [hc] using hs [] (by simp)
    · next hc =>
      cases h
      refine ⟨fun t ht => ?_, by simp⟩
      simpa using hs (c :: t) (by simpa [Ne.symm hc] using ht)

theorem admits_scanFrom {s : State} (hs : s.Sound) : ∀ (column : Nat) (t : Text),
    ∀ l ∈ (scanFrom s column t).lexemes, l.kind.admits l.text = true
  | _, [] => hs.pending
  | column, c :: cs => by
    intro l hl
    cases h : s.step column c with
    | none => simp [scanFrom, h] at hl
    | some next =>
      obtain ⟨out, next⟩ := next
      obtain ⟨h1, h2⟩ := hs.step h
      rw [scanFrom_cons cs h, lexemes_after, List.mem_append] at hl
      rcases hl with hl | hl
      · exact h2 l hl
      · exact admits_scanFrom h1 (column + 1) cs l hl

/-- The lexemes of a text match the patterns of their classes. -/
theorem admits_scan (source : Text) :
    ∀ l ∈ (scan source).lexemes, l.kind.admits l.text = true :=
  admits_scanFrom (s := .between) trivial 0 source

end Lexeme

end SpliceLisp
