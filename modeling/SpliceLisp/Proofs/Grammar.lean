/-
# The grammar of expressions

Which lexemes make up an expression, as a relation: `Phrase ls e` says that `ls`
is one number, string, symbol or operator; or a mark, closing parentheses that
close nothing, and a phrase; or phrases between parentheses. The reader takes a
phrase as if it were one lexeme that stands for its expression, whether it reads
every expression or only the first (`Reader.Pass.run_phrase`).

Key definitions: `Phrase`, `Reader.Pass`.
Key theorems: `Reader.Pass.run_phrase`, `Expr.readAll_of_phrase`,
`Expr.read_of_phrase`.
-/
import Mathlib.Tactic
import SpliceLisp.Reader

namespace SpliceLisp

/-- The lexemes make up the expression. Closing parentheses behind a mark close nothing,
and of a list the lexemes and the expression of each item are given. -/
inductive Phrase : List Lexeme → Expr → Prop
  | number {l : Lexeme} : l.kind = .number → Phrase [l] (.num l.text)
  | string {l : Lexeme} : l.kind = .string → Phrase [l] (.str l.text)
  | symbol {l : Lexeme} : l.kind = .symbol → Phrase [l] (.sym l.text)
  | special {l : Lexeme} : l.kind = .special → Phrase [l] (.sym l.text)
  | quote {m : Lexeme} {cs ls : List Lexeme} {e : Expr} : m.kind = .quote →
      (∀ c ∈ cs, c.kind = .closing) → Phrase ls e → Phrase (m :: (cs ++ ls)) (.quote e.render)
  | list {o c : Lexeme} {items : List (List Lexeme × Expr)} : o.kind = .opening →
      c.kind = .closing → (∀ i ∈ items, Phrase i.1 i.2) →
      Phrase (o :: (items.flatMap Prod.fst ++ [c])) (.list (items.map Prod.snd))

namespace Reader

/-- A lexeme that is no parenthesis and no mark is an expression by itself. -/
theorem exists_phrase_word {l : Lexeme} (h : l.kind ∉ [.opening, .closing, .quote]) :
    ∃ e, Phrase [l] e ∧ ∀ frames, step frames l = deliver e frames := by
  cases hk : l.kind with
  | opening | closing | quote => simp [hk] at h
  | number => exact ⟨_, .number hk, fun _ => by simp [step, hk]⟩
  | string => exact ⟨_, .string hk, fun _ => by simp [step, hk]⟩
  | symbol => exact ⟨_, .symbol hk, fun _ => by simp [step, hk]⟩
  | special => exact ⟨_, .special hk, fun _ => by simp [step, hk]⟩

theorem readFrom_cons (frames : List Frame) (l : Lexeme) (ls : List Lexeme) :
    readFrom frames (l :: ls) = ⟨(step frames l).2.toList ++ (readFrom (step frames l).1 ls).exprs,
      (readFrom (step frames l).1 ls).fault⟩ := rfl

/-- A pass over lexemes that goes on from what each step gives: how it runs, and
how it goes on. -/
structure Pass (β : Type) where
  run : List Frame → List Lexeme → β
  goOn : List Frame × Option Expr → List Lexeme → β
  run_cons : ∀ frames l rest, run frames (l :: rest) = goOn (step frames l) rest
  goOn_none : ∀ frames rest, goOn (frames, none) rest = run frames rest

def every : Pass Reading where
  run := readFrom
  goOn now rest := ⟨now.2.toList ++ (readFrom now.1 rest).exprs, (readFrom now.1 rest).fault⟩
  run_cons _ _ _ := rfl
  goOn_none _ _ := rfl

def first : Pass (Except Fault (Expr × List Lexeme)) where
  run := firstFrom
  goOn now rest := match now with
    | (_, some e) => .ok (e, rest)
    | (next, none) => firstFrom next rest
  run_cons _ _ _ := rfl
  goOn_none _ _ := rfl

namespace Pass

variable {β : Type} (p : Pass β)

theorem run_closings {frames : List Frame} : ∀ {cs : List Lexeme} {rest : List Lexeme},
    (∀ c ∈ cs, c.kind = .closing) →
      p.run (.quote :: frames) (cs ++ rest) = p.run (.quote :: frames) rest
  | [], _, _ => rfl
  | c :: cs, rest, h => by
    have hstep : step (.quote :: frames) c = (.quote :: frames, none) := by
      simp [step, h c (by simp)]
    rw [List.cons_append, p.run_cons, hstep, p.goOn_none,
      run_closings fun d hd => h d (by simp [hd])]

theorem run_strays : ∀ {cs : List Lexeme} (rest : List Lexeme),
    (∀ c ∈ cs, c.kind = .closing) → p.run [] (cs ++ rest) = p.run [] rest
  | [], _, _ => rfl
  | c :: cs, rest, h => by
    have hstep : step [] c = ([], none) := by simp [step, h c (by simp)]
    rw [List.cons_append, p.run_cons, hstep, p.goOn_none,
      run_strays rest fun d hd => h d (List.mem_cons_of_mem c hd)]

theorem run_items {outer : List Frame} {rest : List Lexeme} :
    ∀ {items : List (List Lexeme × Expr)} {seen : List Expr},
      (∀ i ∈ items, ∀ frames tail, p.run frames (i.1 ++ tail) = p.goOn (deliver i.2 frames) tail) →
      p.run (.list seen :: outer) (items.flatMap Prod.fst ++ rest) =
        p.run (.list ((items.map Prod.snd).reverse ++ seen) :: outer) rest
  | [], _, _ => rfl
  | i :: items, seen, h => by
    have hitem : deliver i.2 (.list seen :: outer) = (.list (i.2 :: seen) :: outer, none) := rfl
    rw [List.flatMap_cons, List.append_assoc, h i (by simp), hitem, p.goOn_none,
      run_items fun j hj => h j (by simp [hj])]
    simp

/-- A phrase counts as one lexeme that stands for its expression. -/
theorem run_phrase {ls : List Lexeme} {e : Expr} (h : Phrase ls e) (frames : List Frame)
    (rest : List Lexeme) : p.run frames (ls ++ rest) = p.goOn (deliver e frames) rest := by
  induction h generalizing frames rest with
  | number hk | string hk | symbol hk | special hk =>
    simp [p.run_cons, step, hk]
  | @quote m cs ls e hm hcs _ ih =>
    have hstep : step frames m = (.quote :: frames, none) := by simp [step, hm]
    rw [List.cons_append, List.append_assoc, p.run_cons, hstep, p.goOn_none,
      p.run_closings hcs, ih]
    rfl
  | @list o c items ho hc _ ih =>
    have hopen : step frames o = (.list [] :: frames, none) := by simp [step, ho]
    have hclose : step (.list (items.map Prod.snd).reverse :: frames) c =
        deliver (.list (items.map Prod.snd)) frames := by simp [step, hc]
    rw [List.cons_append, List.append_assoc, p.run_cons, hopen, p.goOn_none,
      p.run_items ih, List.append_nil, List.cons_append, p.run_cons, hclose, List.nil_append]

end Pass

theorem readFrom_phrase {ls : List Lexeme} {e : Expr} (h : Phrase ls e) (rest : List Lexeme) :
    readFrom [] (ls ++ rest) = ⟨e :: (readFrom [] rest).exprs, (readFrom [] rest).fault⟩ :=
  every.run_phrase h [] rest

theorem firstFrom_phrase {ls : List Lexeme} {e : Expr} (h : Phrase ls e) (rest : List Lexeme) :
    firstFrom [] (ls ++ rest) = .ok (e, rest) :=
  first.run_phrase h [] rest

end Reader

namespace Expr

/-- A text whose lexemes make up one expression reads as that and holds no
other. -/
theorem readAll_of_phrase {source : Text} {ls : List Lexeme} {e : Expr}
    (hscan : Lexeme.scan source = ⟨ls, none⟩) (h : Phrase ls e) :
    readAll source = ⟨[e], none⟩ := by
  have hread := Reader.readFrom_phrase h []
  rw [List.append_nil] at hread
  simp [readAll, hscan, hread, Reader.readFrom, Reader.missing]

/-- A text that begins with the lexemes of an expression reads as that. -/
theorem read_of_phrase {source : Text} {ls rest : List Lexeme} {e : Expr}
    (hscan : (Lexeme.scan source).lexemes = ls ++ rest) (h : Phrase ls e) :
    read source = .ok e := by
  simp [read, hscan, Reader.firstFrom_phrase h]

end Expr

end SpliceLisp
