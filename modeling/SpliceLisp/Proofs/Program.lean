/-
# The grammar of whole texts

A text is read as a row of phrases (`Phrase`), with closing parentheses that
close nothing before each and at the end (`Program`). A text whose characters
can all be cut into lexemes is read as a whole exactly if its lexemes are such a
row, and then as the expressions of the row; any other is read up to the first
expression that it does not complete (`Expr.readAll_iff_program`).

One half is that the reader takes a phrase as one lexeme. The other half is an
invariant of its frames: what it has taken since the last complete expression is
an expression without its end, with one frame for each list and each mark in it
that waits (`Unfinished`). One lexeme makes that longer or completes a phrase
(`Reader.unfinished_step`), and so at any time what was read is a program and
what is left is unfinished (`Reader.exists_program_append`).

Key definitions: `Program`, `Unfinished`, `BeginsNoPhrase`.
Key theorems: `Reader.unfinished_step`, `Reader.exists_program_append`,
`Reader.readFrom_program`, `Expr.readAll_iff_program`.
-/
import SpliceLisp.Expr.Equality
import SpliceLisp.Proofs.Grammar

namespace SpliceLisp

/-- The lexemes make up the expressions, one after the other. Closing parentheses before
an expression or before the end close nothing. -/
inductive Program : List Lexeme → List Expr → Prop
  | closings {cs : List Lexeme} : (∀ c ∈ cs, c.kind = .closing) → Program cs []
  | phrase {cs ls rest : List Lexeme} {e : Expr} {es : List Expr} :
      (∀ c ∈ cs, c.kind = .closing) → Phrase ls e → Program rest es →
      Program (cs ++ (ls ++ rest)) (e :: es)

/-- The lexemes do not begin with a whole expression. -/
def BeginsNoPhrase (ls : List Lexeme) : Prop :=
  ∀ (cs ms rest : List Lexeme) (e : Expr), (∀ c ∈ cs, c.kind = .closing) → Phrase ms e →
    ls ≠ cs ++ (ms ++ rest)

open Reader (Frame)

/-- The lexemes are an expression without its end: the frames are what is
unfinished in it, the innermost first. -/
inductive Unfinished : List Lexeme → List Frame → Prop
  | nothing : Unfinished [] []
  | quote {ls cs : List Lexeme} {m : Lexeme} {frames : List Frame} : Unfinished ls frames →
      m.kind = .quote → (∀ c ∈ cs, c.kind = .closing) →
      Unfinished (ls ++ m :: cs) (.quote :: frames)
  | list {ls : List Lexeme} {o : Lexeme} {items : List (List Lexeme × Expr)}
      {frames : List Frame} : Unfinished ls frames → o.kind = .opening →
      (∀ i ∈ items, Phrase i.1 i.2) →
      Unfinished (ls ++ o :: items.flatMap Prod.fst) (.list (items.map Prod.snd).reverse :: frames)

theorem Program.closing_cons {c : Lexeme} (hc : c.kind = .closing) {ls : List Lexeme}
    {es : List Expr} (h : Program ls es) : Program (c :: ls) es := by
  have hcons : ∀ {cs : List Lexeme}, (∀ d ∈ cs, d.kind = .closing) →
      ∀ d ∈ c :: cs, d.kind = .closing := fun hcs => List.forall_mem_cons.2 ⟨hc, hcs⟩
  cases h with
  | closings hcs => exact .closings (hcons hcs)
  | phrase hcs hp hrest =>
    have hmore := Program.phrase (hcons hcs) hp hrest
    exact hmore

theorem Unfinished.append {ls ms : List Lexeme} {outer inner : List Frame}
    (h : Unfinished ls outer) (hms : Unfinished ms inner) :
    Unfinished (ls ++ ms) (inner ++ outer) := by
  induction hms with
  | nothing => rwa [List.append_nil]
  | quote _ hm hcs ih =>
    rw [← List.append_assoc]
    exact ih.quote hm hcs
  | list _ ho hitems ih =>
    rw [← List.append_assoc]
    exact ih.list ho hitems

namespace Reader

/-! ### What is read is in the grammar -/

/-- A whole expression completes what waited for it, or stays inside. -/
theorem unfinished_deliver {ls : List Lexeme} {frames : List Frame} (h : Unfinished ls frames) :
    ∀ {ms : List Lexeme} {e : Expr}, Phrase ms e →
      (∃ next, deliver e frames = (next, none) ∧ Unfinished (ls ++ ms) next) ∨
        ∃ d, deliver e frames = ([], some d) ∧ Phrase (ls ++ ms) d := by
  induction h with
  | nothing => exact fun he => Or.inr ⟨_, rfl, he⟩
  | quote _ hm hcs ih =>
    intro ms e he
    have hquoted := ih (Phrase.quote hm hcs he)
    simpa only [deliver, List.append_assoc, List.cons_append] using hquoted
  | @list ls o items frames hls ho hitems _ =>
    intro ms e he
    have hmore : ∀ i ∈ items ++ [(ms, e)], Phrase i.1 i.2 := by
      simpa [or_imp, forall_and] using And.intro hitems he
    have hopen := Unfinished.list hls ho hmore
    refine Or.inl ⟨_, rfl, ?_⟩
    simpa using hopen

/-- One lexeme makes what is unfinished longer or completes a phrase, unless it
is a closing parenthesis with nothing unfinished. -/
theorem unfinished_step {ls : List Lexeme} {frames : List Frame} (h : Unfinished ls frames)
    (l : Lexeme) :
    (l.kind = .closing ∧ frames = []) ∨
      (∃ next, step frames l = (next, none) ∧ Unfinished (ls ++ [l]) next) ∨
        ∃ d, step frames l = ([], some d) ∧ Phrase (ls ++ [l]) d := by
  cases hk : l.kind with
  | opening =>
    have hopen := @Unfinished.list ls l [] frames h hk (by simp)
    exact Or.inr (Or.inl ⟨.list [] :: frames, by simp [step, hk], by simpa using hopen⟩)
  | quote =>
    have hmark := @Unfinished.quote ls [] l frames h hk (by simp)
    exact Or.inr (Or.inl ⟨.quote :: frames, by simp [step, hk], hmark⟩)
  | closing =>
    cases h with
    | nothing => exact Or.inl ⟨rfl, rfl⟩
    | @quote ls cs m frames hls hm hcs =>
      have hmore : ∀ c ∈ cs ++ [l], c.kind = .closing := by
        simpa [or_imp, forall_and] using And.intro hcs hk
      have hmark := Unfinished.quote hls hm hmore
      exact Or.inr (Or.inl ⟨.quote :: frames, by simp [step, hk], by simpa using hmark⟩)
    | @list ls o items frames hls ho hitems =>
      have hclosed := unfinished_deliver hls (Phrase.list ho hk hitems)
      right
      simpa [step, hk] using hclosed
  | number | string | symbol | special =>
    obtain ⟨e, he, hstep⟩ := exists_phrase_word (l := l) (by simp [hk])
    rw [hstep]
    exact Or.inr (unfinished_deliver h he)

/-- Whatever the lexemes are, what was read is a program, and what is left is
unfinished. -/
theorem exists_program_append : ∀ (rest : List Lexeme) {ls : List Lexeme} {frames : List Frame},
    Unfinished ls frames → ∃ done left next, ls ++ rest = done ++ left ∧
      Program done (readFrom frames rest).exprs ∧ Unfinished left next ∧
        (readFrom frames rest).fault = missing next
  | [], ls, frames, h => ⟨[], ls, frames, by simp, .closings (by simp), h, rfl⟩
  | l :: rest, ls, frames, h => by
    rcases unfinished_step h l with ⟨hl, rfl⟩ | ⟨next, hstep, hnext⟩ | ⟨d, hstep, hd⟩
    · -- With nothing unfinished there are no lexemes yet, and this one closes nothing.
      obtain rfl : ls = [] := by cases h; rfl
      obtain ⟨done, left, last, hls, hdone, hleft, hfault⟩ :=
        exists_program_append rest Unfinished.nothing
      have hstep : step [] l = ([], none) := by simp [step, hl]
      refine ⟨l :: done, left, last, congrArg (l :: ·) hls, ?_, hleft, ?_⟩
      · simpa [readFrom_cons, hstep] using hdone.closing_cons hl
      · simpa [readFrom_cons, hstep] using hfault
    · obtain ⟨done, left, last, hls, hdone, hleft, hfault⟩ :=
        exists_program_append rest hnext
      refine ⟨done, left, last, by simpa using hls, ?_, hleft, ?_⟩
      · simpa [readFrom_cons, hstep] using hdone
      · simpa [readFrom_cons, hstep] using hfault
    · obtain ⟨done, left, last, hls, hdone, hleft, hfault⟩ :=
        exists_program_append rest Unfinished.nothing
      refine ⟨ls ++ [l] ++ done, left, last, ?_, ?_, hleft, ?_⟩
      · rw [List.nil_append] at hls
        simp [hls]
      · have hnone : ∀ c ∈ ([] : List Lexeme), c.kind = .closing := by simp
        have hphrase := Program.phrase hnone hd hdone
        simpa [readFrom_cons, hstep] using hphrase
      · simpa [readFrom_cons, hstep] using hfault

/-! ### What is in the grammar is read -/

theorem readFrom_closings {cs : List Lexeme} (rest : List Lexeme)
    (h : ∀ c ∈ cs, c.kind = .closing) : readFrom [] (cs ++ rest) = readFrom [] rest :=
  every.run_strays rest h

/-- A program is read as its expressions, whatever follows it. -/
theorem readFrom_program {ls : List Lexeme} {es : List Expr} (h : Program ls es)
    (rest : List Lexeme) :
    readFrom [] (ls ++ rest) = ⟨es ++ (readFrom [] rest).exprs, (readFrom [] rest).fault⟩ := by
  induction h with
  | closings hcs => rw [readFrom_closings rest hcs, List.nil_append]
  | phrase hcs hp _ ih =>
    rw [List.append_assoc, List.append_assoc, readFrom_closings _ hcs, readFrom_phrase hp, ih,
      List.cons_append]

theorem Pass.run_unfinished {β : Type} (p : Pass β) {ls : List Lexeme} {frames : List Frame}
    (h : Unfinished ls frames) (rest : List Lexeme) :
    p.run [] (ls ++ rest) = p.run frames rest := by
  induction h generalizing rest with
  | nothing => rfl
  | @quote ls cs m frames _ hm hcs ih =>
    have hstep : step frames m = (.quote :: frames, none) := by simp [step, hm]
    rw [List.append_assoc, ih, List.cons_append, p.run_cons, hstep, p.goOn_none, p.run_closings hcs]
  | @list ls o items frames _ ho hitems ih =>
    have hstep : step frames o = (.list [] :: frames, none) := by simp [step, ho]
    rw [List.append_assoc, ih, List.cons_append, p.run_cons, hstep, p.goOn_none,
      p.run_items fun i hi => p.run_phrase (hitems i hi), List.append_nil]

theorem beginsNoPhrase_of_unfinished {ls : List Lexeme} {frames : List Frame}
    (h : Unfinished ls frames) : BeginsNoPhrase ls := by
  intro cs ms rest e hcs hp heq
  have hnone : (readFrom [] ls).exprs = [] := by
    have hrun := every.run_unfinished h []
    rw [List.append_nil] at hrun
    exact congrArg Reading.exprs hrun
  rw [heq, readFrom_closings _ hcs, readFrom_phrase hp] at hnone
  cases hnone

/-- All lexemes are read exactly if they are a program. -/
theorem readFrom_eq_iff {ls : List Lexeme} {es : List Expr} :
    readFrom [] ls = ⟨es, none⟩ ↔ Program ls es := by
  constructor
  · intro h
    obtain ⟨done, left, next, hls, hdone, hleft, hfault⟩ :=
      exists_program_append ls Unfinished.nothing
    rw [h] at hdone hfault
    cases hleft with
    | nothing =>
      rw [List.nil_append, List.append_nil] at hls
      rwa [hls]
    | quote _ _ _ => cases hfault
    | list _ _ _ => cases hfault
  · intro h
    have hread := readFrom_program h []
    rwa [List.append_nil, readFrom, missing, List.append_nil] at hread

theorem kind_of_missing {frames : List Frame} {f : Fault} (h : missing frames = some f) :
    f.kind = .endOfInput := by
  match frames, h with
  | .list _ :: _, h => cases h; rfl
  | .quote :: _, h => cases h; rfl

end Reader

namespace Expr

/-- **The reader accepts its grammar and nothing else.** Let all of a text be cut
into lexemes. It is read as a whole, with certain expressions, exactly if they
are what its lexemes make up, and the lexemes make up nothing else. If they make
up nothing, the end of the text comes too early, after just the expressions that
are complete: they are a program, any program at the beginning is a part of it,
and no whole expression comes next. -/
theorem readAll_iff_program {source : Text} (h : (Lexeme.scan source).fault = none) :
    let ls := (Lexeme.scan source).lexemes
    (∀ es, readAll source = ⟨es, none⟩ ↔ Program ls es) ∧
    (∀ es fs, Program ls es → Program ls fs → es = fs) ∧
    ((∀ es, ¬ Program ls es) → (∃ f, (readAll source).fault = some f ∧ f.kind = .endOfInput) ∧
      (∃ done left, ls = done ++ left ∧ Program done (readAll source).exprs ∧
        BeginsNoPhrase left) ∧
      ∀ done left es, ls = done ++ left → Program done es → es <+: (readAll source).exprs) := by
  intro ls
  have hread : readAll source = Reader.readFrom [] ls := by rw [readAll, h]; rfl
  rw [hread]
  refine ⟨fun es => Reader.readFrom_eq_iff, fun es fs he hf => ?_, fun hno => ?_⟩
  · have heq := (Reader.readFrom_eq_iff.2 he).symm.trans (Reader.readFrom_eq_iff.2 hf)
    exact congrArg Reading.exprs heq
  obtain ⟨done, left, next, hls, hdone, hleft, hfault⟩ :=
    Reader.exists_program_append ls Unfinished.nothing
  refine ⟨?_, ⟨done, left, hls, hdone, Reader.beginsNoPhrase_of_unfinished hleft⟩, ?_⟩
  · cases hf : (Reader.readFrom [] ls).fault with
    | none => exact absurd (Reader.readFrom_eq_iff.1 (congrArg (Reading.mk _) hf)) (hno _)
    | some f => exact ⟨f, rfl, Reader.kind_of_missing (hfault.symm.trans hf)⟩
  · intro done left es hls hdone
    rw [hls, Reader.readFrom_program hdone]
    exact List.prefix_append _ _

/-- A text with surplus parentheses around and between its expressions and after
a mark, and one that ends inside a list after a whole expression. -/
theorem readAll_iff_program_surplus :
    let whole := ") 'a ) (b ') c 1.) )".toList
    let cut := "1 ) (2 '".toList
    ((Lexeme.scan whole).fault = none ∧ (Lexeme.scan cut).fault = none) ∧
    Program (Lexeme.scan whole).lexemes [quote "a", list [sym "b", quote "c", num "1."]] ∧
    (∀ es, ¬ Program (Lexeme.scan cut).lexemes es) ∧ (readAll cut).exprs = [num "1"] := by
  intro whole cut
  have hwhole : (Lexeme.scan whole).fault = none := by decide +kernel
  have hcut : (Lexeme.scan cut).fault = none := by decide +kernel
  refine ⟨⟨hwhole, hcut⟩, ?_, fun es hes => ?_, by decide +kernel⟩
  · have hexprs : (readAll whole).exprs = [quote "a", list [sym "b", quote "c", num "1."]] := by
      decide +kernel
    have hfault : (readAll whole).fault = none := by decide +kernel
    refine ((readAll_iff_program hwhole).1 _).1 ?_
    rw [← hexprs, ← hfault]
  · have hread := ((readAll_iff_program hcut).1 es).2 hes
    have hfault : (readAll cut).fault = some .missingExpression := by decide +kernel
    rw [hread] at hfault
    cases hfault

end Expr

end SpliceLisp
