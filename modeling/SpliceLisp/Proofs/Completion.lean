/-
# Wrong texts and incomplete ones

A text that cannot be read is wrong or incomplete. It is wrong if a character cannot
stand where it does: then no continuation helps, and every continuation is read up to
the same character, with the same expressions before it. It is incomplete if its end
comes too early: then some continuation can be read (`Expr.wrong_or_incomplete`).

What is cut off a text depends on what follows it at one point only, its last word,
which a continuation may make longer. So a pass over a text either meets a character
that cannot stand, or it goes over all of the text (`Lexeme.passes_or_stuck`) and
arrives at a state from which it goes on with whatever follows
(`Lexeme.Passes.scanFrom_append`). To complete a text is to end its last word or its
string, to give the marks at the end something to defer, for which an empty list will
do, and to close each open list (`Reader.fault_readFrom_closings`).

Key definition: `Lexeme.Passes`.
Key theorems: `Lexeme.passes_or_stuck`, `Reader.readFrom_append`,
`Reader.fault_readFrom_closings`, `Expr.wrong_or_incomplete`.
-/
import Mathlib
import SpliceLisp.Proofs.Program
import SpliceLisp.Proofs.RoundTrip
import SpliceLisp.Proofs.Stray

namespace SpliceLisp

/-! ### Cutting a text that goes on -/

namespace Lexeme

/-- The pass goes over all of the text, from one state to another, and cuts off the
lexemes on the way. -/
inductive Passes : State → Nat → Text → List Lexeme → State → Prop
  | nil {s : State} {column : Nat} : Passes s column [] [] s
  | cons {s mid next : State} {column : Nat} {c : Char} {cs : Text} {out ls : List Lexeme} :
      s.step column c = some (out, mid) → Passes mid (column + 1) cs ls next →
      Passes s column (c :: cs) (out ++ ls) next

section Passes

variable {s next : State} {column : Nat} {t : Text} {ls : List Lexeme}

/-- Behind the text the pass goes on from the state at which it has arrived. -/
theorem Passes.scanFrom_append (h : Passes s column t ls next) (u : Text) :
    scanFrom s column (t ++ u) = after ls (scanFrom next (column + t.length) u) := by
  induction h with
  | nil => rfl
  | cons hstep _ ih =>
    rw [List.cons_append, scanFrom_cons _ hstep, ih, after_after, List.length_cons, Nat.add_assoc,
      Nat.add_comm 1]

theorem Passes.scanFrom (h : Passes s column t ls next) :
    scanFrom s column t = ⟨ls ++ next.pending, next.endFault⟩ := by
  have hend := h.scanFrom_append []
  rwa [List.append_nil] at hend

theorem Passes.scanFrom_stuck (h : Passes s column t ls next) {c : Char}
    (hc : next.step (column + t.length) c = none) (u : Text) :
    Lexeme.scanFrom s column (t ++ c :: u) = ⟨ls, some (.unexpectedChar c (column + t.length))⟩ := by
  rw [h.scanFrom_append, Lexeme.scanFrom, hc, after, List.append_nil]

/-- A pass goes over all of a text or up to a character that cannot stand. -/
theorem passes_or_stuck : ∀ (t : Text) (s : State) (column : Nat),
    (∃ ls next, Passes s column t ls next) ∨
    ∃ pre c post ls next, t = pre ++ c :: post ∧ Passes s column pre ls next ∧
      next.step (column + pre.length) c = none
  | [], s, column => Or.inl ⟨[], s, .nil⟩
  | c :: cs, s, column => by
    cases hstep : s.step column c with
    | none => exact Or.inr ⟨[], c, cs, [], s, rfl, .nil, hstep⟩
    | some now =>
      obtain ⟨out, mid⟩ := now
      rcases passes_or_stuck cs mid (column + 1) with
        ⟨ls, next, hcs⟩ | ⟨pre, d, post, ls, next, rfl, hpre, hd⟩
      · exact Or.inl ⟨out ++ ls, next, .cons hstep hcs⟩
      · refine Or.inr ⟨c :: pre, d, post, out ++ ls, next, rfl, .cons hstep hpre, ?_⟩
        rwa [List.length_cons, Nat.add_comm pre.length 1, ← Nat.add_assoc]

end Passes

theorem scan_append_of_unexpected {source : Text} {c : Char} {column : Nat}
    (h : (scan source).fault = some (.unexpectedChar c column)) (t : Text) :
    scan (source ++ t) = scan source := by
  rcases passes_or_stuck source .between 0 with
    ⟨ls, next, hpass⟩ | ⟨pre, d, post, ls, next, rfl, hpass, hstuck⟩
  · -- At the end of the text no character can be wrong any more.
    rw [scan, hpass.scanFrom] at h
    cases next <;> cases h
  · rw [List.append_assoc, List.cons_append, scan, scan, hpass.scanFrom_stuck hstuck,
      hpass.scanFrom_stuck hstuck]

/-- A text that cannot be cut has a character that cannot stand, or a string in it
does not end. -/
theorem kind_of_fault_scan {source : Text} {f : Fault} (h : (scan source).fault = some f) :
    f.kind = .endOfInput ∨ ∃ c column, f = .unexpectedChar c column := by
  rcases passes_or_stuck source .between 0 with
    ⟨ls, next, hpass⟩ | ⟨pre, d, post, ls, next, rfl, hpass, hstuck⟩
  · rw [scan, hpass.scanFrom] at h
    cases next with
    | string start seen => exact Or.inl (Option.some.inj h ▸ rfl)
    | between | sign _ _ | integer _ _ | fraction _ _ | symbol _ _ => cases h
  · rw [scan, hpass.scanFrom_stuck hstuck] at h
    exact Or.inr ⟨_, _, (Option.some.inj h).symm⟩

/-- Outside a string a delimiter ends the word that is under way, if there is one. -/
theorem State.step_of_isDelimiter {s : State} (hs : s.endFault = none) {c : Char}
    (hc : isDelimiter c = true) (column : Nat) : s.step column c = s.leave column c := by
  obtain ⟨hdigit, hsymbol, hpoint, -⟩ := of_isDelimiter hc
  cases s with
  | between =>
    rw [State.leave, if_pos hc, State.step]
    exact Option.map_id'.symm
  | sign start d => simp [State.step, hdigit]
  | integer start seen => simp [State.step, hdigit, hpoint]
  | fraction start seen => simp [State.step, hdigit]
  | symbol start seen => simp [State.step, hsymbol]
  | string start seen => cases hs

/-- Whatever is under way, nothing or a double quote ends it before a delimiter. -/
theorem State.exists_ending (s : State) (column : Nat) : ∃ (w : Text) (ls : List Lexeme) (k : Nat),
    ∀ u, Delimited u → scanFrom s column (w ++ u) = after ls (scanFrom .between k u) := by
  cases hs : s.endFault with
  | none =>
    exact ⟨[], s.pending, column, fun u hu =>
      scanFrom_leave hu hs fun c hc => State.step_of_isDelimiter hs hc column⟩
  | some f =>
    cases s with
    | string start seen =>
      exact ⟨['"'], [⟨.string, ('"' :: seen).reverse, start⟩], column + 1, fun u _ =>
        scanFrom_cons u (by simp [State.step])⟩
    | between | sign _ _ | integer _ _ | fraction _ _ | symbol _ _ => cases hs

theorem scanFrom_closings : ∀ (n column : Nat), ∃ cs : List Lexeme, cs.length = n ∧
    (∀ c ∈ cs, c.kind = .closing) ∧
      scanFrom .between column (List.replicate n ')') = ⟨cs, none⟩
  | 0, _ => ⟨[], rfl, by simp, rfl⟩
  | n + 1, column => by
    obtain ⟨cs, hlen, hcs, hscan⟩ := scanFrom_closings n (column + 1)
    refine ⟨⟨.closing, [')'], column⟩ :: cs, by rw [List.length_cons, hlen],
      List.forall_mem_cons.2 ⟨rfl, hcs⟩, ?_⟩
    rw [List.replicate_succ, scanFrom_closing, hscan]
    rfl

/-- The last word or string of a text that could go on has an end, behind which an
empty list and any number of closing parentheses can stand. -/
theorem exists_scan_append {source : Text}
    (h : ∀ c column, (scan source).fault ≠ some (.unexpectedChar c column)) :
    ∃ (w : Text) (ls : List Lexeme), ∀ n, ∃ (o c : Lexeme) (cs : List Lexeme),
      o.kind = .opening ∧ c.kind = .closing ∧ cs.length = n ∧ (∀ d ∈ cs, d.kind = .closing) ∧
        scan (source ++ (w ++ '(' :: ')' :: List.replicate n ')')) =
          ⟨ls ++ (o :: c :: cs), none⟩ := by
  rcases passes_or_stuck source .between 0 with
    ⟨out, next, hpass⟩ | ⟨pre, c, post, ls, next, rfl, hpass, hstuck⟩
  · obtain ⟨w, ls, k, hw⟩ := next.exists_ending (0 + source.length)
    refine ⟨w, out ++ ls, fun n => ?_⟩
    obtain ⟨cs, hlen, hcs, hscan⟩ := scanFrom_closings n (k + 1 + 1)
    refine ⟨⟨.opening, ['('], k⟩, ⟨.closing, [')'], k + 1⟩, cs, rfl, rfl, hlen, hcs, ?_⟩
    have hdelimited : Delimited ('(' :: ')' :: List.replicate n ')') :=
      show isDelimiter '(' = true by decide
    rw [scan, hpass.scanFrom_append, hw _ hdelimited, scanFrom_opening, scanFrom_closing, hscan]
    simp [after]
  · exact absurd (congrArg Scan.fault (hpass.scanFrom_stuck hstuck post)) (h _ _)

end Lexeme

/-! ### Reading what goes on -/

namespace Reader

open Lexeme

/-- What is read of the first lexemes does not depend on those that follow. -/
theorem readFrom_append : ∀ (ls ms : List Lexeme) (frames : List Frame),
    readFrom frames (ls ++ ms) =
      ⟨(readFrom frames ls).exprs ++ (readFrom (framesAfter frames ls) ms).exprs,
        (readFrom (framesAfter frames ls) ms).fault⟩
  | [], _, _ => rfl
  | l :: ls, ms, frames => by
    rw [List.cons_append, readFrom_cons, readFrom_append ls ms, readFrom_cons, List.append_assoc]
    rfl

/-- If no mark waits, as many closing parentheses as there are open lists leave
nothing unfinished. -/
theorem fault_readFrom_closings : ∀ {cs : List Lexeme} {frames : List Frame},
    (∀ c ∈ cs, c.kind = .closing) → cs.length = openLists frames →
      (¬ ∃ outer, frames = .quote :: outer) → (readFrom frames cs).fault = none
  | [], frames, _, hlen, hmark => by
    cases frames with
    | nil => rfl
    | cons frame outer =>
      cases frame with
      | list items => cases hlen
      | quote => exact absurd ⟨outer, rfl⟩ hmark
  | c :: cs, frames, hcs, hlen, hmark => by
    cases frames with
    | nil => cases hlen
    | cons frame outer =>
      cases frame with
      | quote => exact absurd ⟨outer, rfl⟩ hmark
      | list items =>
        have hclose : step (.list items :: outer) c = deliver (.list items.reverse) outer := by
          simp [step, hcs c (by simp)]
        obtain ⟨hopen, hnext⟩ := openLists_deliver (.list items.reverse) outer
        have hrest : cs.length = openLists (deliver (.list items.reverse) outer).1 :=
          (Nat.succ.inj hlen).trans hopen.symm
        rw [readFrom_cons, hclose]
        exact fault_readFrom_closings (fun d hd => hcs d (List.mem_cons_of_mem c hd)) hrest hnext

/-- Behind any lexemes, an empty list and a closing parenthesis for each list that
they leave open complete them, and at least one expression is read. -/
theorem readFrom_completed {ls cs : List Lexeme} {o c : Lexeme} (ho : o.kind = .opening)
    (hc : c.kind = .closing) (hcs : ∀ d ∈ cs, d.kind = .closing)
    (hlen : cs.length = openLists (framesAfter [] ls)) :
    ∃ e es, readFrom [] (ls ++ (o :: c :: cs)) = ⟨e :: es, none⟩ := by
  have hempty : Phrase [o, c] (.list []) :=
    Phrase.list ho hc (List.forall_mem_nil fun i : List Lexeme × Expr => Phrase i.1 i.2)
  have hstep : readFrom (framesAfter [] ls) (o :: c :: cs) =
      every.goOn (deliver (.list []) (framesAfter [] ls)) cs :=
    every.run_phrase hempty _ cs
  obtain ⟨hopen, hmark⟩ := openLists_deliver (.list []) (framesAfter [] ls)
  have hfault : (readFrom [] (ls ++ (o :: c :: cs))).fault = none := by
    rw [readFrom_append, hstep]
    exact fault_readFrom_closings hcs (hlen.trans hopen.symm) hmark
  have hprogram : Program (ls ++ (o :: c :: cs)) (readFrom [] (ls ++ (o :: c :: cs))).exprs :=
    readFrom_eq_iff.1 (congrArg (Reading.mk _) hfault)
  generalize readFrom [] (ls ++ (o :: c :: cs)) = reading at hfault hprogram
  obtain ⟨es, fault⟩ := reading
  obtain rfl : fault = none := hfault
  cases es with
  | cons e es => exact ⟨e, es, rfl⟩
  | nil =>
    -- A program without expressions has no parenthesis that opens a list.
    generalize hall : ls ++ (o :: c :: cs) = all at hprogram
    cases hprogram with
    | closings hclosings =>
      have hoc := hclosings o (hall ▸ by simp)
      rw [ho] at hoc
      cases hoc

theorem firstFrom_of_exprs : ∀ {ls : List Lexeme} {frames : List Frame} {e : Expr}
    {es : List Expr}, (readFrom frames ls).exprs = e :: es →
      ∃ rest, firstFrom frames ls = .ok (e, rest)
  | [], _, _, _, h => by cases h
  | l :: ls, frames, e, es, h => by
    rw [readFrom_cons] at h
    cases hstep : step frames l with
    | mk next done =>
    rw [hstep] at h
    cases done with
    | none =>
      obtain ⟨rest, hrest⟩ := firstFrom_of_exprs h
      exact ⟨rest, by rw [firstFrom, hstep]; exact hrest⟩
    | some d =>
      obtain rfl : d = e := (List.cons.inj h).1
      exact ⟨ls, by rw [firstFrom, hstep]⟩

theorem kind_of_fault_readFrom {ls : List Lexeme} {f : Fault}
    (h : (readFrom [] ls).fault = some f) : f.kind = .endOfInput := by
  rw [← List.append_nil ls, readFrom_append] at h
  exact kind_of_missing h

theorem kind_of_firstFrom_error : ∀ {ls : List Lexeme} {frames : List Frame} {f : Fault},
    firstFrom frames ls = .error f → f.kind = .endOfInput
  | [], frames, f, h => by
    obtain rfl := Except.error.inj h
    cases hmissing : missing frames with
    | none => rfl
    | some f => exact kind_of_missing hmissing
  | l :: ls, frames, f, h => by
    rw [firstFrom] at h
    split at h
    · cases h
    · exact kind_of_firstFrom_error h

end Reader

namespace Expr

/-- The two ways in which a text can fail: it cannot be cut, or it ends too early for
its lexemes. -/
def FailsWith (source : Text) (f : Fault) : Prop :=
  (Lexeme.scan source).fault = some f ∨
    (Lexeme.scan source).fault = none ∧ f.kind = .endOfInput

theorem failsWith_of_readAll {source : Text} {f : Fault} (h : (readAll source).fault = some f) :
    FailsWith source f := by
  simp only [readAll] at h
  cases hscan : (Lexeme.scan source).fault with
  | some g => rw [hscan] at h; exact Or.inl (hscan.trans h)
  | none =>
    rw [hscan] at h
    exact Or.inr ⟨hscan, Reader.kind_of_fault_readFrom h⟩

theorem failsWith_of_read {source : Text} {f : Fault} (h : read source = .error f) :
    FailsWith source f := by
  simp only [read] at h
  split at h
  · cases h
  · next f' hfirst =>
    have hf := Except.error.inj h
    cases hscan : (Lexeme.scan source).fault with
    | some g => rw [hscan] at hf; exact Or.inl (hscan.trans (congrArg some hf))
    | none =>
      rw [hscan] at hf
      exact Or.inr ⟨hscan, hf ▸ Reader.kind_of_firstFrom_error hfirst⟩

theorem FailsWith.scan_of_unexpected {source : Text} {c : Char} {column : Nat}
    (h : FailsWith source (.unexpectedChar c column)) :
    (Lexeme.scan source).fault = some (.unexpectedChar c column) := by
  rcases h with hscan | ⟨-, hkind⟩
  · exact hscan
  · cases hkind

theorem FailsWith.scan_of_endOfInput {source : Text} {f : Fault} (h : FailsWith source f)
    (hf : f.kind = .endOfInput) (c : Char) (column : Nat) :
    (Lexeme.scan source).fault ≠ some (.unexpectedChar c column) := by
  intro hc
  rcases h with hscan | ⟨hscan, -⟩
  · obtain rfl := Option.some.inj (hscan.symm.trans hc)
    cases hf
  · cases hscan.symm.trans hc

theorem FailsWith.kind {source : Text} {f : Fault} (h : FailsWith source f) :
    f.kind = .endOfInput ∨ ∃ c column, f = .unexpectedChar c column := by
  rcases h with hscan | ⟨-, hkind⟩
  · exact Lexeme.kind_of_fault_scan hscan
  · exact Or.inl hkind

/-- A text without a character that cannot stand has a continuation that is read as
a whole and holds an expression. -/
theorem exists_readAll_append {source : Text}
    (h : ∀ c column, (Lexeme.scan source).fault ≠ some (.unexpectedChar c column)) :
    ∃ t e es, readAll (source ++ t) = ⟨e :: es, none⟩ ∧ read (source ++ t) = .ok e := by
  obtain ⟨w, ls, hw⟩ := Lexeme.exists_scan_append h
  obtain ⟨o, c, cs, ho, hc, hlen, hcs, hscan⟩ := hw (Reader.openLists (Reader.framesAfter [] ls))
  obtain ⟨e, es, hread⟩ := Reader.readFrom_completed ho hc hcs hlen
  obtain ⟨rest, hfirst⟩ := Reader.firstFrom_of_exprs (congrArg Reading.exprs hread)
  refine ⟨w ++ '(' :: ')' :: List.replicate (Reader.openLists (Reader.framesAfter [] ls)) ')',
    e, es, ?_, ?_⟩
  · simp only [readAll, hscan, hread]
    rfl
  · simp only [read, hscan, hfirst]

/-- **Wrong texts and incomplete ones are told apart.** If reading a text, all of it
or its first expression, fails with a character that cannot stand at its column, so
it does for every continuation, and the expressions before the failure are the same.
If it fails because the text ends too early, a continuation can be read. It fails in
no other way. -/
theorem wrong_or_incomplete (source : Text) :
    (∀ c column, (readAll source).fault = some (.unexpectedChar c column) →
      ∀ t, (readAll (source ++ t)).fault = some (.unexpectedChar c column) ∧
        (readAll (source ++ t)).exprs = (readAll source).exprs) ∧
    (∀ c column, read source = .error (.unexpectedChar c column) →
      ∀ t, read (source ++ t) = .error (.unexpectedChar c column)) ∧
    (∀ f, (readAll source).fault = some f → f.kind = .endOfInput →
      ∃ t, (readAll (source ++ t)).fault = none) ∧
    (∀ f, read source = .error f → f.kind = .endOfInput → ∃ t e, read (source ++ t) = .ok e) ∧
    ∀ f, (readAll source).fault = some f ∨ read source = .error f →
      f.kind = .endOfInput ∨ ∃ c column, f = .unexpectedChar c column := by
  refine ⟨fun c column h t => ?_, fun c column h t => ?_, fun f h hf => ?_, fun f h hf => ?_,
    fun f h => ?_⟩
  · have hsame := Lexeme.scan_append_of_unexpected (failsWith_of_readAll h).scan_of_unexpected t
    have hread : readAll (source ++ t) = readAll source := by simp only [readAll, hsame]
    exact ⟨hread ▸ h, hread ▸ rfl⟩
  · have hsame := Lexeme.scan_append_of_unexpected (failsWith_of_read h).scan_of_unexpected t
    have hread : read (source ++ t) = read source := by simp only [read, hsame]
    exact hread.trans h
  · obtain ⟨t, e, es, hall, -⟩ :=
      exists_readAll_append ((failsWith_of_readAll h).scan_of_endOfInput hf)
    exact ⟨t, by rw [hall]⟩
  · obtain ⟨t, e, -, -, hfirst⟩ :=
      exists_readAll_append ((failsWith_of_read h).scan_of_endOfInput hf)
    exact ⟨t, e, hfirst⟩
  · rcases h with h | h
    · exact (failsWith_of_readAll h).kind
    · exact (failsWith_of_read h).kind

/-- After `(a "b` the text may go on, after `a (b @` it may not, although its first
expression can be read. -/
theorem wrong_or_incomplete_string_and_sign :
    ((readAll "(a \"b".toList).fault = some .unterminatedString ∧
      ∃ t, (readAll ("(a \"b".toList ++ t)).fault = none) ∧
    (readAll "a (b @".toList).fault = some (.unexpectedChar '@' 5) ∧
      ∀ t, (readAll ("a (b @".toList ++ t)).fault = some (.unexpectedChar '@' 5) ∧
        (readAll ("a (b @".toList ++ t)).exprs = (readAll "a (b @".toList).exprs :=
  have hstring : (readAll "(a \"b".toList).fault = some .unterminatedString := by decide +kernel
  have hsign : (readAll "a (b @".toList).fault = some (.unexpectedChar '@' 5) := by
    decide +kernel
  ⟨⟨hstring, (wrong_or_incomplete "(a \"b".toList).2.2.1 _ hstring rfl⟩, hsign,
    (wrong_or_incomplete "a (b @".toList).1 _ _ hsign⟩

end Expr

end SpliceLisp
