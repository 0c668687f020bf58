/-
# Lexemes as slices of the text

The lexemes of a text are what stands in it, each at its column, one behind the other
and with blanks between them. They are all of the text, blanks aside, exactly if it
has no failure, and a failure says where it is (`Lexeme.scan_cuts`).

To cut a text is a relation between the text, its lexemes and what is left
(`Lexeme.Cut`): a blank is passed over, a lexeme is cut off, and an atom only before a
delimiter. This says nothing of how the lexemes are found. That the pass over the
characters cuts in this way is shown step by step: at any point the characters of the
lexeme under way, with the text that is still to come, are what is left of the text
(`Lexeme.State.Sound.cut_step`, `Lexeme.Passes.cut`). Conversely a pass finds nothing
else than what is cut (`Lexeme.Cut.scanFrom`), so a part of a text that is cut to its
end has no failure by itself.

Key definitions: `Lexeme.Slices`, `Lexeme.Covered`, `Lexeme.Cut`, `Lexeme.State.begun`.
Key theorems: `Lexeme.Cut.scanFrom`, `Lexeme.State.Sound.cut_step`,
`Lexeme.Passes.cut`, `Lexeme.scan_cases`, `Lexeme.scan_cuts`.
-/
import Mathlib
import SpliceLisp.Proofs.Completion

namespace SpliceLisp

namespace Lexeme

open Text

def stop (l : Lexeme) : Nat := l.column + l.text.length

/-- Some lexeme has the character at the column. -/
def Covered (ls : List Lexeme) (i : Nat) : Prop := ∃ l ∈ ls, l.column ≤ i ∧ i < l.stop

/-- The lexemes are slices of the source. Each stands at its column, matches the pattern
of its class, and has a delimiter or the end behind it if it is an atom. Each ends
before the later ones begin, and what is before the end of a lexeme and in none of them
is blank. -/
structure Slices (source : Text) (ls : List Lexeme) : Prop where
  slice : ∀ l ∈ ls, ∃ pre post, source = pre ++ (l.text ++ post) ∧ l.column = pre.length ∧
    l.kind.admits l.text = true ∧ (l.kind.isAtom = true → Delimited post)
  apart : ls.Pairwise fun l m => l.stop ≤ m.column
  gaps : ∀ i c, source[i]? = some c → (∃ l ∈ ls, i < l.stop) → Covered ls i ∨ isBlank c = true

/-! ### Cutting a text -/

/-- From the column on the text is the lexemes, each at its column, with blanks between
them, and then the rest at its column. Behind an atom is a delimiter or the end. -/
inductive Cut : Nat → Text → List Lexeme → Nat → Text → Prop
  | rest {column : Nat} {text : Text} : Cut column text [] column text
  | blank {column k : Nat} {c : Char} {text rest : Text} {ls : List Lexeme} :
      isBlank c = true → Cut (column + 1) text ls k rest → Cut column (c :: text) ls k rest
  | lexeme {l : Lexeme} {k : Nat} {text rest : Text} {ls : List Lexeme} :
      l.kind.admits l.text = true → (l.kind.isAtom = true → Delimited text) →
      Cut l.stop text ls k rest → Cut l.column (l.text ++ text) (l :: ls) k rest

namespace Cut

variable {column k m : Nat} {text rest tail : Text} {ls ms : List Lexeme}

theorem trans (h : Cut column text ls k rest) (h' : Cut k rest ms m tail) :
    Cut column text (ls ++ ms) m tail := by
  induction h with
  | rest => exact h'
  | blank hc _ ih => exact .blank hc (ih h')
  | lexeme hl hd _ ih => exact .lexeme hl hd (ih h')

theorem one {kind : Kind} {t : Text} (hl : kind.admits t = true)
    (hd : kind.isAtom = true → Delimited rest) :
    Cut column (t ++ rest) [⟨kind, t, column⟩] (column + t.length) rest :=
  .lexeme (l := ⟨kind, t, column⟩) hl hd .rest

/-- What is cut is a beginning of the text, and is cut the same without the rest. -/
theorem exists_append (h : Cut column text ls k rest) :
    ∃ t, text = t ++ rest ∧ k = column + t.length ∧ Cut column t ls k [] := by
  induction h with
  | rest => exact ⟨[], rfl, rfl, .rest⟩
  | @blank _ _ c _ _ _ hc _ ih =>
    obtain ⟨t, rfl, rfl, ht⟩ := ih
    exact ⟨c :: t, rfl, by rw [List.length_cons]; omega, .blank hc ht⟩
  | @lexeme l _ _ _ _ hl hd _ ih =>
    obtain ⟨t, rfl, rfl, ht⟩ := ih
    refine ⟨l.text ++ t, by rw [List.append_assoc], ?_, .lexeme hl (fun ha => ?_) ht⟩
    · rw [List.length_append, stop]; omega
    · cases t with
      | nil => trivial
      | cons d t => exact hd ha

/-- A cut of the text is what the pass finds. -/
theorem scanFrom (h : Cut column text ls k rest) :
    scanFrom .between column text = after ls (scanFrom .between k rest) := by
  induction h with
  | rest => rfl
  | blank hc _ ih => rw [scanFrom_blank hc, ih]
  | @lexeme l _ text _ _ hl hd _ ih =>
    have hfirst : Lexeme.scanFrom .between l.column (l.text ++ text) =
        after [l] (Lexeme.scanFrom .between l.stop text) := by
      obtain ⟨kind, t, column⟩ := l
      cases kind with
      | number | symbol | special => exact scanFrom_word rfl hl (hd rfl) column
      | string => exact scanFrom_string hl text column
      | opening =>
        obtain rfl : t = ['('] := by simpa [Kind.admits] using hl
        exact scanFrom_opening text column
      | closing =>
        obtain rfl : t = [')'] := by simpa [Kind.admits] using hl
        exact scanFrom_closing text column
      | quote =>
        obtain rfl : t = ['\''] := by simpa [Kind.admits] using hl
        exact scanFrom_mark text column
    rw [hfirst, ih, after_after, List.singleton_append]

theorem slice (h : Cut column text ls k rest) {l : Lexeme} (hl : l ∈ ls) :
    ∃ pre post, text = pre ++ (l.text ++ post) ∧ l.column = column + pre.length ∧
      l.stop ≤ k ∧ l.kind.admits l.text = true ∧ (l.kind.isAtom = true → Delimited post) := by
  induction h with
  | rest => cases hl
  | @blank _ _ c _ _ _ _ _ ih =>
    obtain ⟨pre, post, rfl, hcolumn, hrest⟩ := ih hl
    refine ⟨c :: pre, post, rfl, ?_, hrest⟩
    rw [hcolumn, List.length_cons]; omega
  | @lexeme m _ text _ _ hm hd hcut ih =>
    rcases List.mem_cons.1 hl with rfl | hl
    · obtain ⟨t, -, rfl, -⟩ := hcut.exists_append
      exact ⟨[], text, rfl, rfl, Nat.le_add_right _ _, hm, hd⟩
    · obtain ⟨pre, post, rfl, hcolumn, hrest⟩ := ih hl
      refine ⟨m.text ++ pre, post, by rw [List.append_assoc], ?_, hrest⟩
      rw [hcolumn, List.length_append, stop]; omega

theorem pairwise (h : Cut column text ls k rest) :
    ls.Pairwise fun l m => l.stop ≤ m.column := by
  induction h with
  | rest => exact .nil
  | blank _ _ ih => exact ih
  | lexeme _ _ hcut ih =>
    refine .cons (fun m hm => ?_) ih
    obtain ⟨pre, -, -, hcolumn, -⟩ := hcut.slice hm
    omega

/-- What no lexeme covers is blank, as far as the text is cut. -/
theorem covered_or_blank (h : Cut column text ls k rest) {i : Nat} {c : Char}
    (hi : text[i]? = some c) (hk : column + i < k) : Covered ls (column + i) ∨ isBlank c = true := by
  induction h generalizing i with
  | rest => omega
  | @blank column _ d _ _ _ hd _ ih =>
    cases i with
    | zero =>
      obtain rfl : d = c := by simpa using hi
      exact Or.inr hd
    | succ i =>
      have hnext := ih (i := i) (by simpa using hi) (by omega)
      rwa [Nat.add_assoc, Nat.add_comm 1] at hnext
  | @lexeme l _ text _ ls _ _ _ ih =>
    by_cases hin : i < l.text.length
    · exact Or.inl ⟨l, by simp, by omega, by rw [stop]; omega⟩
    · rw [List.getElem?_append_right (by omega)] at hi
      have hrest := ih hi (by rw [stop]; omega)
      rw [stop, show l.column + l.text.length + (i - l.text.length) = l.column + i by omega] at hrest
      exact hrest.imp_left fun ⟨m, hm, hcover⟩ => ⟨m, List.mem_cons_of_mem l hm, hcover⟩

end Cut

/-! ### What is under way -/

namespace State

/-- The characters of the lexeme under way. -/
def begun : State → Text
  | between => []
  | sign _ c => [c]
  | integer _ seen | fraction _ seen | symbol _ seen | string _ seen => seen.reverse

/-- The column of the lexeme under way, or of the next character. -/
def start (column : Nat) : State → Nat
  | between => column
  | sign start _ | integer start _ | fraction start _ | symbol start _ | string start _ => start

/-- The lexeme under way ends where the pass stands. -/
def EndsAt (s : State) (column : Nat) : Prop := s.start column + s.begun.length = column

/-- A first character is passed over, or is a lexeme, or one begins with it. -/
theorem cut_begin {column : Nat} {c : Char} {out : List Lexeme} {next : State}
    (h : begin column c = some (out, next)) :
    next.EndsAt (column + 1) ∧
      ∀ text, Cut column (c :: text) out (next.start (column + 1)) (next.begun ++ text) := by
  have hone : ∀ {kind : Kind}, kind.admits [c] = true → kind.isAtom = false →
      ∀ text, Cut column (c :: text) [⟨kind, [c], column⟩] (column + 1) text :=
    fun hl hk text => .one (t := [c]) hl (by rw [hk]; nofun)
  unfold begin at h
  split at h
  · next hc => cases h; exact ⟨rfl, fun _ => .blank hc .rest⟩
  split at h
  · next hc => cases h; exact ⟨rfl, hone (by simp [Kind.admits, hc]) rfl⟩
  split at h
  · next hc => cases h; exact ⟨rfl, hone (by simp [Kind.admits, hc]) rfl⟩
  split at h
  · next hc => cases h; exact ⟨rfl, hone (by simp [Kind.admits, hc]) rfl⟩
  -- A string or a word begins, of which the character is the first.
  split at h
  · cases h; exact ⟨rfl, fun _ => .rest⟩
  split at h
  · cases h; exact ⟨rfl, fun _ => .rest⟩
  split at h
  · cases h; exact ⟨rfl, fun _ => .rest⟩
  split at h
  · cases h; exact ⟨rfl, fun _ => .rest⟩
  · cases h

/-- Before a delimiter the lexeme under way is complete. -/
theorem Sound.cut_pending {s : State} (hs : s.Sound) (hend : s.endFault = none) {column : Nat}
    (hat : s.EndsAt column) {text : Text} (htext : Delimited text) :
    Cut (s.start column) (s.begun ++ text) s.pending column text := by
  have hone : ∀ {kind : Kind}, kind.admits s.begun = true →
      Cut (s.start column) (s.begun ++ text) [⟨kind, s.begun, s.start column⟩] column text := by
    intro kind hl
    have hcut : Cut (s.start column) (s.begun ++ text) [⟨kind, s.begun, s.start column⟩]
        (s.start column + s.begun.length) text := .one hl fun _ => htext
    rwa [show s.start column + s.begun.length = column from hat] at hcut
  cases s with
  | between => exact .rest
  | string start seen => cases hend
  | sign _ _ | integer _ _ | fraction _ _ | symbol _ _ =>
    exact hone (hs.pending _ List.mem_cons_self)

theorem Sound.cut_leave {s : State} (hs : s.Sound) (hend : s.endFault = none) {column : Nat}
    (hat : s.EndsAt column) {c : Char} {out : List Lexeme} {next : State}
    (h : s.leave column c = some (out, next)) :
    next.EndsAt (column + 1) ∧ ∀ text,
      Cut (s.start column) (s.begun ++ c :: text) out (next.start (column + 1)) (next.begun ++ text) := by
  unfold State.leave at h
  split at h
  · next hc =>
    obtain ⟨⟨ls, t⟩, hb, he⟩ := Option.map_eq_some_iff.1 h
    cases he
    obtain ⟨hnext, hcut⟩ := cut_begin hb
    have hpending : ∀ text, Cut (s.start column) (s.begun ++ c :: text) s.pending column (c :: text) :=
      fun text => hs.cut_pending hend hat (show Delimited (c :: text) from hc)
    exact ⟨hnext, fun text => (hpending text).trans (hcut text)⟩
  · cases h

/-- What a step can do: nothing is under way, and what can begin begins; the lexeme
under way has one character more; a string ends; or a delimiter ends what is under
way. -/
theorem step_cases {s next : State} {column : Nat} {c : Char} {out : List Lexeme}
    (h : s.step column c = some (out, next)) :
    (s = .between ∧ begin column c = some (out, next)) ∨
    (out = [] ∧ next.begun = s.begun ++ [c] ∧ next.start (column + 1) = s.start column) ∨
    (∃ start seen, s = .string start seen ∧ out = [⟨.string, s.begun ++ [c], start⟩] ∧
      next = .between) ∨
    (s.endFault = none ∧ s.leave column c = some (out, next)) := by
  cases s with
  | between => exact Or.inl ⟨rfl, h⟩
  | sign start d =>
    simp only [State.step] at h
    split at h
    · cases h; exact Or.inr (Or.inl ⟨rfl, rfl, rfl⟩)
    · exact Or.inr (Or.inr (Or.inr ⟨rfl, h⟩))
  | integer start seen =>
    simp only [State.step] at h
    split at h
    · cases h; exact Or.inr (Or.inl ⟨rfl, List.reverse_cons, rfl⟩)
    split at h
    · cases h; exact Or.inr (Or.inl ⟨rfl, List.reverse_cons, rfl⟩)
    · exact Or.inr (Or.inr (Or.inr ⟨rfl, h⟩))
  | fraction start seen =>
    simp only [State.step] at h
    split at h
    · cases h; exact Or.inr (Or.inl ⟨rfl, List.reverse_cons, rfl⟩)
    · exact Or.inr (Or.inr (Or.inr ⟨rfl, h⟩))
  | symbol start seen =>
    simp only [State.step] at h
    split at h
    · cases h; exact Or.inr (Or.inl ⟨rfl, List.reverse_cons, rfl⟩)
    · exact Or.inr (Or.inr (Or.inr ⟨rfl, h⟩))
  | string start seen =>
    simp only [State.step] at h
    split at h
    · cases h
      rw [List.reverse_cons]
      exact Or.inr (Or.inr (Or.inl ⟨start, seen, rfl, rfl, rfl⟩))
    · cases h; exact Or.inr (Or.inl ⟨rfl, List.reverse_cons, rfl⟩)

/-- One character more: the lexemes that it completes are cut off, and what is under way
is what is left of the text so far. -/
theorem Sound.cut_step {s : State} (hs : s.Sound) {column : Nat} (hat : s.EndsAt column) {c : Char}
    {out : List Lexeme} {next : State} (h : s.step column c = some (out, next)) :
    next.EndsAt (column + 1) ∧ ∀ text,
      Cut (s.start column) (s.begun ++ c :: text) out (next.start (column + 1)) (next.begun ++ text) := by
  have hword := (hs.step h).2
  have hgrown : s.start column + (s.begun ++ [c]).length = column + 1 := by
    rw [List.length_append, ← Nat.add_assoc]
    exact congrArg (· + 1) hat
  have htext : ∀ text, s.begun ++ c :: text = (s.begun ++ [c]) ++ text := fun text =>
    (List.append_assoc s.begun [c] text).symm
  rcases step_cases h with
    ⟨rfl, hbegin⟩ | ⟨rfl, hbegun, hstart⟩ | ⟨start, seen, rfl, rfl, rfl⟩ | ⟨hfault, hleave⟩
  · exact cut_begin hbegin
  · refine ⟨?_, fun text => ?_⟩
    · rw [EndsAt, hbegun, hstart, hgrown]
    · rw [htext, hbegun, hstart]
      exact .rest
  · refine ⟨rfl, fun text => ?_⟩
    have hcut : Cut start (((State.string start seen).begun ++ [c]) ++ text)
        [⟨.string, (State.string start seen).begun ++ [c], start⟩]
        (start + ((State.string start seen).begun ++ [c]).length) text :=
      .one (hword _ List.mem_cons_self) fun hatom => absurd hatom (by decide)
    rwa [← htext, show start + _ = column + 1 from hgrown] at hcut
  · exact hs.cut_leave hfault hat hleave

end State

/-! ### The whole pass -/

theorem State.of_step_eq_none {s : State} {column : Nat} {c : Char} (h : s.step column c = none) :
    isDelimiter c = false ∧ s.endFault = none := by
  have hs : s.endFault = none := by
    cases s with
    | string start seen =>
      simp only [State.step] at h
      split at h <;> cases h
    | between | sign _ _ | integer _ _ | fraction _ _ | symbol _ _ => rfl
  refine ⟨?_, hs⟩
  by_contra hc
  rw [Bool.not_eq_false] at hc
  obtain ⟨next, hnext⟩ := begin_isSome_of_isDelimiter column hc
  rw [State.step_of_isDelimiter hs hc, State.leave, if_pos hc, hnext] at h
  cases h

/-- What a pass over a text finds is cut off it, and what is then under way is left. -/
theorem Passes.cut {s next : State} {column : Nat} {t : Text} {ls : List Lexeme}
    (h : Passes s column t ls next) (hs : s.Sound) (hat : s.EndsAt column) :
    next.Sound ∧ next.EndsAt (column + t.length) ∧ ∀ text,
      Cut (s.start column) (s.begun ++ (t ++ text)) ls (next.start (column + t.length))
        (next.begun ++ text) := by
  induction h with
  | nil => exact ⟨hs, hat, fun _ => .rest⟩
  | @cons _ mid next column c cs out ls hstep _ ih =>
    obtain ⟨hmid, hcut⟩ := hs.cut_step hat hstep
    obtain ⟨hnext, hend, hrest⟩ := ih (hs.step hstep).1 hmid
    have hcolumn : column + 1 + cs.length = column + (c :: cs).length := by
      rw [List.length_cons]
      omega
    rw [hcolumn] at hend hrest
    exact ⟨hnext, hend, fun text => (hcut (cs ++ text)).trans (hrest text)⟩

theorem Passes.cut_scan {next : State} {t : Text} {ls : List Lexeme}
    (h : Passes .between 0 t ls next) :
    next.Sound ∧ next.EndsAt t.length ∧
      ∀ text, Cut 0 (t ++ text) ls (next.start t.length) (next.begun ++ text) := by
  have hcut := h.cut (show State.Sound .between from trivial) (show State.EndsAt .between 0 from rfl)
  rwa [Nat.zero_add] at hcut

namespace Cut

variable {k : Nat} {source rest : Text} {ls : List Lexeme}

theorem not_covered (h : Cut 0 source ls k rest) {i : Nat} (hi : k ≤ i) : ¬ Covered ls i := by
  rintro ⟨l, hl, -, hstop⟩
  obtain ⟨-, -, -, -, hk, -⟩ := h.slice hl
  omega

theorem slices (h : Cut 0 source ls k rest) : Slices source ls where
  slice l hl := by
    obtain ⟨pre, post, hsource, hcolumn, -, hadmits, hdelimited⟩ := h.slice hl
    exact ⟨pre, post, hsource, by rw [hcolumn, Nat.zero_add], hadmits, hdelimited⟩
  apart := h.pairwise
  gaps i c hc hi := by
    obtain ⟨l, hl, hi⟩ := hi
    obtain ⟨-, -, -, -, hk, -⟩ := h.slice hl
    simpa using h.covered_or_blank hc (by omega)

theorem scan (h : Cut 0 source ls k []) : scan source = ⟨ls, none⟩ := by
  rw [Lexeme.scan, h.scanFrom]
  simp [Lexeme.scanFrom, after, State.pending, State.endFault]

end Cut

/-- A pass that stands in a string has gone over the double quote that begins it, and
over no other since. -/
theorem State.Sound.begun_string {start : Nat} {seen : Text} (h : (State.string start seen).Sound) :
    ∃ inside, '"' ∉ inside ∧ (State.string start seen).begun = '"' :: inside := by
  obtain ⟨inside, hinside, htext⟩ := admits_string_iff.1 (h [] List.not_mem_nil)
  rw [List.append_nil] at htext
  exact ⟨inside, hinside, List.append_cancel_right htext⟩

/-- All of a text is cut, or all up to a string that does not end, or all up to what
begins before a character that cannot stand. -/
theorem scan_cases (source : Text) :
    (∃ ls, scan source = ⟨ls, none⟩ ∧ Cut 0 source ls source.length []) ∨
    (∃ ls before inside, scan source = ⟨ls, some .unterminatedString⟩ ∧
      source = before ++ '"' :: inside ∧ '"' ∉ inside ∧
      Cut 0 source ls before.length ('"' :: inside) ∧ (scan (source ++ ['"'])).fault = none) ∨
    ∃ ls pre c post k rest, source = pre ++ c :: post ∧ isBlank c = false ∧
      Cut 0 source ls k rest ∧ k ≤ pre.length ∧ (scan pre).fault = none ∧
      ∀ u, scan (pre ++ c :: u) = ⟨ls, some (.unexpectedChar c pre.length)⟩ := by
  rcases passes_or_stuck source .between 0 with
    ⟨ls, next, hpass⟩ | ⟨pre, c, post, ls, next, rfl, hpass, hstuck⟩
  · obtain ⟨hsound, hend, hcut⟩ := hpass.cut_scan
    have hscan : scan source = ⟨ls ++ next.pending, next.endFault⟩ := hpass.scanFrom
    have hwhole := hcut []
    rw [List.append_nil, List.append_nil] at hwhole
    cases hfault : next.endFault with
    | none =>
      have hlast := hsound.cut_pending hfault hend (show Delimited [] from trivial)
      rw [List.append_nil] at hlast
      exact Or.inl ⟨_, hfault ▸ hscan, hwhole.trans hlast⟩
    | some f =>
      cases next with
      | string start seen =>
        obtain ⟨inside, hinside, hbegun⟩ := hsound.begun_string
        rw [hbegun] at hwhole
        obtain ⟨before, hsource, hstart, -⟩ := hwhole.exists_append
        rw [Nat.zero_add] at hstart
        refine Or.inr (Or.inl ⟨ls, before, inside, ?_, hsource, hinside, hstart ▸ hwhole, ?_⟩)
        · rw [hscan, State.pending, List.append_nil]
          rfl
        · have hquote : (State.string start seen).step (0 + source.length) '"' =
              some ([⟨.string, ('"' :: seen).reverse, start⟩], .between) := by simp [State.step]
          rw [scan, hpass.scanFrom_append, scanFrom_cons [] hquote]
          rfl
      | between | sign _ _ | integer _ _ | fraction _ _ | symbol _ _ => cases hfault
  · rw [Nat.zero_add] at hstuck
    obtain ⟨-, hend, hcut⟩ := hpass.cut_scan
    obtain ⟨hdelimiter, hfault⟩ := State.of_step_eq_none hstuck
    have hblank : isBlank c = false := by
      simp only [isDelimiter, Bool.or_eq_false_iff] at hdelimiter
      exact hdelimiter.1.1
    refine Or.inr (Or.inr ⟨ls, pre, c, post, _, _, rfl, hblank, hcut (c :: post), ?_, ?_, fun u => ?_⟩)
    · rw [State.EndsAt] at hend
      omega
    · rw [scan, hpass.scanFrom]
      exact hfault
    · rw [scan, hpass.scanFrom_stuck (by rwa [Nat.zero_add]), Nat.zero_add]

/-- **A text is cut into slices of it, as far as it can be cut.** The lexemes stand in
the text at their columns, in order and apart, with blanks between them, each matches
the pattern of its class, and an atom has a delimiter or the end behind it. There is
no failure exactly if all that is in no lexeme is blank.

A character that is reported is the one at that column. The text before it has no
failure, and any text that begins with all up to it fails with it, at that column. If
a string does not end, the text before its double quote, which is the last one, has
no failure, and neither has the whole with a double quote behind it. There are no
other failures. -/
theorem scan_cuts (source : Text) :
    let ls := (scan source).lexemes
    let fault := (scan source).fault
    Slices source ls ∧
    (fault = none ↔ ∀ i c, source[i]? = some c → Covered ls i ∨ isBlank c = true) ∧
    (∀ c column, fault = some (.unexpectedChar c column) →
      source[column]? = some c ∧ (scan (source.take column)).fault = none ∧
        ∀ t, (scan (source.take (column + 1) ++ t)).fault = some (.unexpectedChar c column)) ∧
    (fault = some .unterminatedString → ∃ before inside, source = before ++ '"' :: inside ∧
      '"' ∉ inside ∧ (scan before).fault = none ∧ (scan (source ++ ['"'])).fault = none) ∧
    ∀ f, fault = some f → f = .unterminatedString ∨ ∃ c column, f = .unexpectedChar c column := by
  intro ls fault
  rcases scan_cases source with
    ⟨ms, hscan, hcut⟩ | ⟨ms, before, inside, hscan, hsource, hinside, hcut, hended⟩ |
    ⟨ms, pre, c, post, k, rest, hsource, hblank, hcut, hk, hpre, hscan⟩
  · have hls : ls = ms := congrArg Scan.lexemes hscan
    have hfault : fault = none := congrArg Scan.fault hscan
    rw [hls, hfault]
    refine ⟨hcut.slices, iff_of_true rfl fun i c hc => ?_, nofun, nofun, nofun⟩
    obtain ⟨hi, -⟩ := List.getElem?_eq_some_iff.1 hc
    simpa using hcut.covered_or_blank hc (by omega)
  · have hls : ls = ms := congrArg Scan.lexemes hscan
    have hfault : fault = some .unterminatedString := congrArg Scan.fault hscan
    have hquote : source[before.length]? = some '"' := by simp [hsource]
    have hbefore : (scan before).fault = none := by
      obtain ⟨t, ht, -, htcut⟩ := hcut.exists_append
      obtain rfl : before = t := List.append_cancel_right (hsource.symm.trans ht)
      rw [htcut.scan]
    rw [hls, hfault]
    refine ⟨hcut.slices, iff_of_false nofun fun hall => ?_, nofun,
      fun _ => ⟨before, inside, hsource, hinside, hbefore, hended⟩, fun f hf => Or.inl ?_⟩
    · rcases hall _ _ hquote with hcovered | hblank
      · exact hcut.not_covered le_rfl hcovered
      · revert hblank; decide
    · exact (Option.some.inj hf).symm
  · have hsame : scan source = ⟨ms, some (.unexpectedChar c pre.length)⟩ := hsource ▸ hscan post
    have hls : ls = ms := congrArg Scan.lexemes hsame
    have hfault : fault = some (.unexpectedChar c pre.length) := congrArg Scan.fault hsame
    have hchar : source[pre.length]? = some c := by simp [hsource]
    rw [hls, hfault]
    refine ⟨hcut.slices, iff_of_false nofun fun hall => ?_, ?_, nofun, fun f hf => Or.inr ?_⟩
    · rcases hall _ _ hchar with hcovered | hc
      · exact hcut.not_covered hk hcovered
      · rw [hblank] at hc
        cases hc
    · rintro _ _ ⟨⟩
      refine ⟨hchar, ?_, fun t => ?_⟩
      · rw [hsource, List.take_left, hpre]
      · have htake : source.take (pre.length + 1) = pre ++ [c] := by simp [hsource, List.take_append]
        rw [htake, List.append_assoc, List.singleton_append, hscan]
    · exact ⟨c, pre.length, (Option.some.inj hf).symm⟩

/-- In the first text a bracket stands behind a string and a sign, in the second a string
with a parenthesis in it does not end. -/
theorem scan_cuts_bracket_and_string :
    let wrong : Text := "(-1.5 - \"a (\") [b"
    let incomplete : Text := "a \"b\" (\"c )"
    ((scan wrong).fault = some (.unexpectedChar '[' 15) ∧
      (scan (wrong.take 15)).fault = none ∧
      ∀ t, (scan (wrong.take 16 ++ t)).fault = some (.unexpectedChar '[' 15)) ∧
    (scan incomplete).fault = some .unterminatedString ∧
      ∃ before inside, incomplete = before ++ '"' :: inside ∧ '"' ∉ inside ∧
        (scan before).fault = none ∧ (scan (incomplete ++ ['"'])).fault = none := by
  intro wrong incomplete
  have hwrong : (scan wrong).fault = some (.unexpectedChar '[' 15) := by decide +kernel
  have hincomplete : (scan incomplete).fault = some .unterminatedString := by decide +kernel
  obtain ⟨-, -, hunexpected, -, -⟩ := scan_cuts wrong
  obtain ⟨-, -, -, hunterminated, -⟩ := scan_cuts incomplete
  obtain ⟨-, hbefore, hbeyond⟩ := hunexpected _ _ hwrong
  exact ⟨⟨hwrong, hbefore, hbeyond⟩, hincomplete, hunterminated hincomplete⟩

end Lexeme

end SpliceLisp
