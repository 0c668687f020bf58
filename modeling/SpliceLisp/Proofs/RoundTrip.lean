/-
# Printing and reading back

A deferred expression prints as the text it holds, without its mark, so an
expression does not always read back as itself. It reads back as what is left
when each deferred text in it gives way to the expression it reads as
(`Expr.unquoted`), and that prints the same (`Expr.read_render`). With nothing
deferred an expression reads back as itself, so its text tells it from all
others (`Expr.render_inj`).

The induction is on how a readable expression is built: before a delimiter, its
text is cut into lexemes that make up the expression (`Expr.Spells`), and what
follows a `(` into the phrases of the items and a closing parenthesis
(`Expr.SpellsEnd`). With its marks written out, any readable expression is read
from some text, so *readable* is no more than what a reader gives
(`Expr.produced_iff`).

Key definitions: `Expr.unquoted`, `Expr.Spells`, `Expr.SpellsEnd`, `Expr.Produced`.
Key theorems: `Expr.readAll_render`, `Expr.render_unquoted`, `Expr.render_inj`,
`Expr.produced_iff`, `Expr.round_trip`.
-/
import Mathlib
import SpliceLisp.Expr.Equality
import SpliceLisp.Proofs.Grammar
import SpliceLisp.Proofs.Readable

namespace SpliceLisp

namespace Expr

open Lexeme

mutual

/-- The expression with each deferred text replaced by what it reads as. -/
def unquoted : Expr → Expr
  | quote t => match read t with
    | .ok e => e
    | .error _ => quote t
  | list es => list (unquotedAll es)
  | num t => num t
  | str t => str t
  | sym n => sym n
  | func p => func p

/-- The expressions with each deferred text replaced by what it reads as. -/
def unquotedAll : List Expr → List Expr
  | [] => []
  | e :: es => unquoted e :: unquotedAll es

end

theorem unquotedAll_eq_map (es : List Expr) : unquotedAll es = es.map unquoted := by
  induction es with
  | nil => rfl
  | cons e es ih => rw [unquotedAll, ih, List.map_cons]

@[simp] theorem unquoted_list (es : List Expr) : (list es).unquoted = list (es.map unquoted) := by
  rw [unquoted, unquotedAll_eq_map]

theorem unquoted_quote {t : Text} {e : Expr} (h : read t = .ok e) : (quote t).unquoted = e := by
  rw [unquoted, h]

/-! ### The lexemes of an expression's text -/

/-- Before a delimiter, the lexemes of the text make up the expression. -/
def Spells (t : Text) (e : Expr) : Prop :=
  ∀ (column : Nat) (rest : Text), Delimited rest → ∃ ls, Phrase ls e ∧
    scanFrom .between column (t ++ rest) = after ls (scanFrom .between (column + t.length) rest)

/-- The text consists of the items and of the parenthesis that ends their
list. -/
def SpellsEnd (t : Text) (es : List Expr) : Prop :=
  ∀ (column : Nat) (rest : Text), ∃ (items : List (List Lexeme × Expr)) (c : Lexeme),
    items.map Prod.snd = es ∧ (∀ i ∈ items, Phrase i.1 i.2) ∧ c.kind = .closing ∧
      scanFrom .between column (t ++ rest) =
        after (items.flatMap Prod.fst ++ [c]) (scanFrom .between (column + t.length) rest)

theorem Spells.number {t : Text} (h : Kind.admits .number t = true) : Spells t (.num t) :=
  fun column _ hr => ⟨_, .number rfl, scanFrom_word rfl h hr column⟩

theorem Spells.string {t : Text} (h : Kind.admits .string t = true) : Spells t (.str t) :=
  fun column rest _ => ⟨_, .string rfl, scanFrom_string h rest column⟩

theorem Spells.symbol {n : Text}
    (h : (Kind.admits .symbol n || Kind.admits .special n) = true) : Spells n (.sym n) := by
  intro column rest hr
  rcases Bool.or_eq_true_iff.1 h with h | h
  · exact ⟨_, .symbol rfl, scanFrom_word rfl h hr column⟩
  · exact ⟨_, .special rfl, scanFrom_word rfl h hr column⟩

theorem Spells.quote {t : Text} {e : Expr} (h : Spells t e) :
    Spells ('\'' :: t) (.quote e.render) := by
  intro column rest hr
  obtain ⟨ls, hls, hscan⟩ := h (column + 1) rest hr
  have hnone : ∀ c ∈ ([] : List Lexeme), c.kind = .closing := by simp
  refine ⟨_, .quote (m := ⟨.quote, ['\''], column⟩) rfl hnone hls, ?_⟩
  rw [List.cons_append, scanFrom_mark, hscan, after_after, List.length_cons, Nat.add_assoc,
    Nat.add_comm 1]
  rfl

theorem spellsEnd_nil : SpellsEnd [')'] [] := fun column rest =>
  ⟨[], ⟨.closing, [')'], column⟩, rfl, by simp, rfl, scanFrom_closing rest column⟩

theorem SpellsEnd.cons {t u : Text} {e : Expr} {es : List Expr} (he : Spells t e)
    (hes : SpellsEnd u es) (hu : ∀ rest, Delimited (u ++ rest)) :
    SpellsEnd (t ++ u) (e :: es) := by
  intro column rest
  obtain ⟨ls, hls, hscan⟩ := he column (u ++ rest) (hu rest)
  obtain ⟨items, c, hmap, hitems, hc, htail⟩ := hes (column + t.length) rest
  refine ⟨(ls, e) :: items, c, by simp [hmap], ?_, hc, ?_⟩
  · intro i hi
    rcases List.mem_cons.1 hi with rfl | hi
    · exact hls
    · exact hitems i hi
  · rw [List.append_assoc, hscan, htail, after_after]
    simp [Nat.add_assoc]

theorem SpellsEnd.blank {t : Text} {es : List Expr} (h : SpellsEnd t es) :
    SpellsEnd (' ' :: t) es := by
  intro column rest
  obtain ⟨items, c, hmap, hitems, hc, hscan⟩ := h (column + 1) rest
  refine ⟨items, c, hmap, hitems, hc, ?_⟩
  rw [List.cons_append, scanFrom_blank (by decide), hscan, List.length_cons, Nat.add_assoc,
    Nat.add_comm 1]

theorem SpellsEnd.list {t : Text} {es : List Expr} (h : SpellsEnd t es) :
    Spells ('(' :: t) (.list es) := by
  intro column rest _
  obtain ⟨items, c, hmap, hitems, hc, hscan⟩ := h (column + 1) rest
  have hphrase := Phrase.list (o := ⟨.opening, ['('], column⟩) rfl hc hitems
  refine ⟨_, by rw [← hmap]; exact hphrase, ?_⟩
  rw [List.cons_append, scanFrom_opening, hscan, after_after, List.length_cons, Nat.add_assoc,
    Nat.add_comm 1]
  rfl

theorem Spells.scan {t : Text} {e : Expr} (h : Spells t e) :
    ∃ ls, Phrase ls e ∧ Lexeme.scan t = ⟨ls, none⟩ := by
  obtain ⟨ls, hls, hscan⟩ := h 0 [] trivial
  refine ⟨ls, hls, ?_⟩
  rw [Lexeme.scan, ← List.append_nil t, hscan]
  simp [scanFrom, after, State.pending, State.endFault]

/-- The reader that is after one expression leaves nothing of such a text. -/
theorem Spells.firstFrom {t : Text} {e : Expr} (h : Spells t e) :
    (Lexeme.scan t).fault = none ∧ Reader.firstFrom [] (Lexeme.scan t).lexemes = .ok (e, []) := by
  obtain ⟨ls, hls, hscan⟩ := h.scan
  rw [hscan]
  refine ⟨rfl, ?_⟩
  calc Reader.firstFrom [] ls = Reader.firstFrom [] (ls ++ []) := by rw [List.append_nil]
    _ = .ok (e, []) := Reader.firstFrom_phrase hls []

theorem Spells.readAll {t : Text} {e : Expr} (h : Spells t e) : readAll t = ⟨[e], none⟩ := by
  obtain ⟨ls, hls, hscan⟩ := h.scan
  exact readAll_of_phrase hscan hls

theorem Spells.read {t : Text} {e : Expr} (h : Spells t e) : read t = .ok e := by
  obtain ⟨ls, hls, hscan⟩ := h.scan
  have hall : (Lexeme.scan t).lexemes = ls ++ [] := by rw [hscan, List.append_nil]
  exact read_of_phrase hall hls

/-! ### Texts of readable expressions -/

theorem delimited_renderRest (es : List Expr) (rest : Text) : Delimited (renderRest es ++ rest) := by
  cases es with
  | nil => exact (by decide : isDelimiter ')' = true)
  | cons e es => exact (by decide : isDelimiter ' ' = true)

theorem spellsEnd_renderRest : ∀ {es : List Expr}, (∀ e ∈ es, Spells e.render e.unquoted) →
    SpellsEnd (renderRest es) (es.map unquoted)
  | [], _ => spellsEnd_nil
  | e :: es, h =>
    have hes := spellsEnd_renderRest fun f hf => h f (List.mem_cons_of_mem e hf)
    (hes.cons (h e (by simp)) (delimited_renderRest es)).blank

/-- The text of a readable expression spells that expression without its
marks. -/
theorem Shaped.spells {e : Expr} (h : e.Readable) : Spells e.render e.unquoted := by
  induction h with
  | num ht => simpa only [unquoted, render] using Spells.number ht
  | str ht => simpa only [unquoted, render] using Spells.string ht
  | sym hn => simpa only [unquoted, render] using Spells.symbol hn
  | @quote e _ ih => rwa [unquoted_quote ih.read]
  | @list es _ ih =>
    rw [unquoted_list]
    cases es with
    | nil => exact spellsEnd_nil.list
    | cons e es =>
      have hes := spellsEnd_renderRest fun f hf => ih f (List.mem_cons_of_mem e hf)
      rw [render, List.cons_append]
      exact (hes.cons (ih e (by simp)) (delimited_renderRest es)).list
  | func hp => exact hp.elim

/-- The text of a readable expression holds that expression without its marks
and nothing else. -/
theorem readAll_render {e : Expr} (h : e.Readable) : readAll e.render = ⟨[e.unquoted], none⟩ :=
  h.spells.readAll

theorem read_render {e : Expr} (h : e.Readable) : read e.render = .ok e.unquoted :=
  h.spells.read

/-! ### Without marks -/

theorem renderRest_congr {f : Expr → Expr} : ∀ {es : List Expr},
    (∀ e ∈ es, (f e).render = e.render) → renderRest (es.map f) = renderRest es
  | [], _ => rfl
  | e :: es, h => by
    rw [List.map_cons, renderRest, renderRest, h e (by simp),
      renderRest_congr fun d hd => h d (by simp [hd])]

theorem render_list_congr {f : Expr → Expr} {es : List Expr}
    (h : ∀ e ∈ es, (f e).render = e.render) :
    (list (es.map f)).render = (list es).render := by
  cases es with
  | nil => rfl
  | cons e es =>
    rw [List.map_cons, render, render, h e (by simp),
      renderRest_congr fun d hd => h d (by simp [hd])]

/-- Without its marks an expression has the same text. -/
theorem render_unquoted {e : Expr} (h : e.Readable) : e.unquoted.render = e.render := by
  induction h with
  | num _ | str _ | sym _ => simp [unquoted]
  | @quote e he ih => rw [unquoted_quote (read_render he), ih, render]
  | list _ ih => rw [unquoted_list, render_list_congr ih]
  | func hp => exact hp.elim

/-- Without its marks an expression is readable. -/
theorem Shaped.unquoted {e : Expr} (h : e.Readable) : e.unquoted.Readable :=
  readable_of_read (read_render h)

theorem holdsNoQuote_unquoted {e : Expr} (h : e.Readable) : e.unquoted.holdsNoQuote = true := by
  induction h with
  | num _ | str _ | sym _ => simp [Expr.unquoted, holdsNoQuote]
  | @quote e he ih => rwa [unquoted_quote (read_render he)]
  | list _ ih => simpa using ih
  | func hp => exact hp.elim

theorem unquoted_eq_self {P : Procedure → Prop} {e : Expr} (h : e.Shaped P)
    (hq : e.holdsNoQuote = true) : e.unquoted = e := by
  induction h with
  | num _ | str _ | sym _ | func _ => simp [Expr.unquoted]
  | quote _ => cases hq
  | list _ ih =>
    rw [unquoted_list, List.map_congr_left (g := id) fun e he =>
      ih e he (holdsNoQuote_list.1 hq e he), List.map_id]

/-- Readable expressions with nothing deferred are told apart by their texts. -/
theorem render_inj {e f : Expr} (he : e.Readable) (hf : f.Readable) (hqe : e.holdsNoQuote = true)
    (hqf : f.holdsNoQuote = true) (h : e.render = f.render) : e = f := by
  have h1 := read_render he
  rw [h, read_render hf, unquoted_eq_self he hqe, unquoted_eq_self hf hqf] at h1
  exact (Except.ok.inj h1).symm

/-! ### What a reader gives -/

/-- Some text holds the expression, be it the first or a later one. -/
def Produced (e : Expr) : Prop := ∃ source, read source = .ok e ∨ e ∈ (readAll source).exprs

theorem exists_spellsEnd : ∀ {es : List Expr}, (∀ e ∈ es, ∃ t, Spells t e) →
    ∃ t, SpellsEnd t es ∧ ∀ rest, Delimited (t ++ rest)
  | [], _ => ⟨[')'], spellsEnd_nil, fun _ => (by decide : isDelimiter ')' = true)⟩
  | e :: es, h => by
    obtain ⟨t, ht⟩ := h e (by simp)
    obtain ⟨u, hu, hd⟩ := exists_spellsEnd fun f hf => h f (List.mem_cons_of_mem e hf)
    exact ⟨' ' :: (t ++ u), (hu.cons ht hd).blank, fun _ => (by decide : isDelimiter ' ' = true)⟩

theorem exists_spells {e : Expr} (h : e.Readable) : ∃ t, Spells t e := by
  induction h with
  | num ht => exact ⟨_, .number ht⟩
  | str ht => exact ⟨_, .string ht⟩
  | sym hn => exact ⟨_, .symbol hn⟩
  | quote he _ => exact ⟨_, render_unquoted he ▸ he.spells.quote⟩
  | list _ ih =>
    obtain ⟨t, ht, -⟩ := exists_spellsEnd ih
    exact ⟨_, ht.list⟩
  | func hp => exact hp.elim

/-- The readable expressions are those that a reader gives. -/
theorem produced_iff {e : Expr} : e.Produced ↔ e.Readable := by
  constructor
  · rintro ⟨source, h | h⟩
    · exact readable_of_read h
    · exact readable_of_mem_readAll h
  · intro h
    obtain ⟨t, ht⟩ := exists_spells h
    exact ⟨t, Or.inl ht.read⟩

/-- **Printing and reading back.** What a reader gave reads back, from its text,
as itself without marks: nothing in that is deferred, and it has the same text.
After a mark the text reads as deferred. So an expression in which nothing is
deferred reads back as itself, and no other such expression has its text. -/
theorem round_trip {e : Expr} (h : e.Produced) :
    read e.render = .ok e.unquoted ∧ e.unquoted.holdsNoQuote = true ∧
      e.unquoted.render = e.render ∧ read ('\'' :: e.render) = .ok (.quote e.render) ∧
      (e.holdsNoQuote = true → read e.render = .ok e ∧
        ∀ f : Expr, f.Produced → f.holdsNoQuote = true → f.render = e.render → f = e) := by
  have he := produced_iff.1 h
  refine ⟨read_render he, holdsNoQuote_unquoted he, render_unquoted he, ?_, fun hq => ⟨?_, ?_⟩⟩
  · rw [he.spells.quote.read, render_unquoted he]
  · rw [read_render he, unquoted_eq_self he hq]
  · exact fun f hf hqf hr => render_inj (produced_iff.1 hf) he hqf hq hr

/-- A list with a mark inside, and a mark inside what that defers. -/
theorem round_trip_marks :
    let e : Expr := list [sym "f", quote "(g \"(\" x)", num "-1."]
    e.Produced ∧ read e.render =
      .ok (list [sym "f", list [sym "g", str "\"(\"", sym "x"], num "-1."]) := by
  have hp : (list [sym "f", quote "(g \"(\" x)", num "-1."]).Produced :=
    ⟨"(f '(g \"(\"'x) -1.)".toList, Or.inl (by decide +kernel)⟩
  refine ⟨hp, (round_trip hp).1.trans ?_⟩
  decide +kernel

end Expr

end SpliceLisp
