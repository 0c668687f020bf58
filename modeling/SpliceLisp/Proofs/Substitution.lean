/-
# Replacing letters and replacing leaves

A function is applied by replacing letters in a flat text. Where no name clashes
this is the replacing of leaves in a tree (`Expr.instantiate`): it is enough
that a leaf of the body in which a parameter's letters occur is that parameter,
and that no later parameter occurs in an earlier argument
(`Expr.readAll_substitute`).

No separator belongs to a parameter, so an occurrence lies inside the text of
one leaf (`Text.replaceFrom_append_cons`). Replacing parameter after parameter
keeps the text that of the body with the first so many leaves instantiated.

Key definitions: `Expr.instantiate`, `Expr.leaves`.
Key theorems: `Text.replaceFrom_append_cons`, `Expr.replaceFrom_render_instantiate`,
`Expr.substitute_eq_render`, `Expr.applyFunction_eq`, `Expr.readAll_substitute`.
-/
import Mathlib
import SpliceLisp.Evaluation.Functions
import SpliceLisp.Proofs.RoundTrip

namespace SpliceLisp

/-! ### Replacing between separators -/

namespace Text

theorem isPrefixOf_append_cons {word : Text} {c : Char} (after : Text) :
    ∀ before : Text, c ∉ word →
      word.isPrefixOf (before ++ c :: after) = word.isPrefixOf before := by
  induction word with
  | nil => simp
  | cons w word ih =>
    intro before hc
    simp only [List.mem_cons, not_or] at hc
    cases before with
    | nil => simp [List.isPrefixOf, Ne.symm hc.1]
    | cons b before => simp [List.isPrefixOf, ih before hc.2]

theorem replaceFrom_eq_nil {word put : Text} : ∀ {t : Text} {passed : Nat}, t.length ≤ passed →
    replaceFrom word put passed t = []
  | [], _, _ => by simp [replaceFrom]
  | _ :: t, 0, h => by simp at h
  | _ :: t, passed + 1, h => by
    rw [replaceFrom]
    exact replaceFrom_eq_nil (by simpa using h)

/-- No occurrence reaches across a character that does not belong to the
word. -/
theorem replaceFrom_append_cons {word put : Text} {c : Char} (hw : word ≠ []) (hc : c ∉ word)
    (after : Text) : ∀ {before : Text} {passed : Nat}, passed ≤ before.length →
      replaceFrom word put passed (before ++ c :: after) =
        replaceFrom word put passed before ++ c :: replaceFrom word put 0 after
  | [], passed, h => by
    obtain rfl : passed = 0 := by simpa using h
    have hpre := isPrefixOf_append_cons after [] hc
    rw [List.nil_append] at hpre ⊢
    have hnil : word.isPrefixOf [] = false := by cases word with
      | nil => exact absurd rfl hw
      | cons w word => rfl
    simp [replaceFrom, hpre, hnil]
  | b :: before, 0, _ => by
    have hpre := isPrefixOf_append_cons after (b :: before) hc
    rw [List.cons_append] at hpre ⊢
    rw [replaceFrom, replaceFrom, hpre]
    split
    · next h =>
      have hlen := (List.isPrefixOf_iff_prefix.1 h).length_le
      rw [replaceFrom_append_cons hw hc after (by simp at hlen; omega), List.append_assoc]
    · rw [replaceFrom_append_cons hw hc after (Nat.zero_le _), List.cons_append]
  | b :: before, passed + 1, h => by
    rw [List.cons_append, replaceFrom, replaceFrom]
    exact replaceFrom_append_cons hw hc after (by simpa using h)

theorem replaceFrom_self {word : Text} (put : Text) (hw : word ≠ []) :
    replaceFrom word put 0 word = put := by
  cases word with
  | nil => exact absurd rfl hw
  | cons w word =>
    have hpre : (w :: word).isPrefixOf (w :: word) = true := by simp
    rw [replaceFrom, if_pos hpre, replaceFrom_eq_nil (by simp), List.append_nil]

theorem replaceFrom_of_not_infix {word put t : Text} (h : ¬ word <:+: t) :
    replaceFrom word put 0 t = t := by
  refine replaceFrom_of_not_mentions t ?_
  rw [← Bool.not_eq_true, mentions_iff]
  exact h

end Text

namespace Expr

/-! ### Leaves -/

mutual

/-- The expression with the symbols that are bound replaced. -/
def instantiate (bindings : List (Text × Expr)) : Expr → Expr
  | sym n => (bindings.lookup n).getD (sym n)
  | list es => list (instantiateAll bindings es)
  | num t => num t
  | str t => str t
  | quote t => quote t
  | func p => func p

/-- The expressions with the symbols that are bound replaced. -/
def instantiateAll (bindings : List (Text × Expr)) : List Expr → List Expr
  | [] => []
  | e :: es => instantiate bindings e :: instantiateAll bindings es

end

mutual

/-- The parts of an expression that are no lists, from left to right. -/
def leaves : Expr → List Expr
  | list es => leavesOfAll es
  | num t => [num t]
  | str t => [str t]
  | sym n => [sym n]
  | quote t => [quote t]
  | func p => [func p]

def leavesOfAll : List Expr → List Expr
  | [] => []
  | e :: es => leaves e ++ leavesOfAll es

end

@[simp] theorem instantiate_list (bindings : List (Text × Expr)) (es : List Expr) :
    (list es).instantiate bindings = list (es.map (instantiate bindings)) := by
  have hall : ∀ es : List Expr, instantiateAll bindings es = es.map (instantiate bindings) := by
    intro es
    induction es with
    | nil => rfl
    | cons e es ih => rw [instantiateAll, ih, List.map_cons]
  rw [instantiate, hall]

@[simp] theorem leaves_list (es : List Expr) : (list es).leaves = es.flatMap leaves := by
  have hall : ∀ es : List Expr, leavesOfAll es = es.flatMap leaves := by
    intro es
    induction es with
    | nil => rfl
    | cons e es ih => rw [leavesOfAll, ih, List.flatMap_cons]
  rw [leaves, hall]

mutual

theorem instantiate_nil : ∀ e : Expr, e.instantiate [] = e
  | num _ | str _ | sym _ | quote _ | func _ => rfl
  | list es => by rw [instantiate, instantiateAll_nil es]

theorem instantiateAll_nil : ∀ es : List Expr, instantiateAll [] es = es
  | [] => rfl
  | e :: es => by rw [instantiateAll, instantiate_nil e, instantiateAll_nil es]

end

theorem mem_of_lookup {bindings : List (Text × Expr)} {n : Text} {a : Expr}
    (h : bindings.lookup n = some a) : (n, a) ∈ bindings := by
  obtain ⟨before, after, rfl, -⟩ := List.lookup_eq_some_iff.1 h
  simp

theorem not_mem_of_readable_sym {p : Text} (hp : (sym p).Readable) {c : Char}
    (hc : c ∈ [' ', '(', ')']) : c ∉ p := by
  have hsep : Lexeme.isDelimiter c = true ∧ c ∉ Lexeme.operators := by
    simp only [List.mem_cons, List.not_mem_nil, or_false] at hc
    rcases hc with rfl | rfl | rfl <;> decide
  have hnot := (Lexeme.of_isDelimiter hsep.1).2.1
  intro hm
  cases hp with
  | sym hn =>
    rcases Bool.or_eq_true_iff.1 hn with hn | hn
    · cases p with
      | nil => cases hm
      | cons a as =>
        simp only [Lexeme.Kind.admits, Bool.and_eq_true, List.all_eq_true] at hn
        have hcont : Lexeme.continuesSymbol c = true := by
          rcases List.mem_cons.1 hm with rfl | hm
          · exact Lexeme.continuesSymbol_of_beginsSymbol hn.1
          · exact hn.2 c hm
        rw [hnot] at hcont
        cases hcont
    · rcases p with _ | ⟨a, _ | ⟨b, as⟩⟩
      · cases hm
      · obtain rfl := List.mem_singleton.1 hm
        exact hsep.2 (by simpa [Lexeme.Kind.admits] using hn)
      · cases hn

theorem ne_nil_of_readable_sym {p : Text} (hp : (sym p).Readable) : p ≠ [] := by
  rintro rfl
  cases hp with
  | sym hn => exact absurd hn (by decide)

/-! ### One parameter -/

section OneParameter

variable {p : Text} (hp : (sym p).Readable) (put : Text)
include hp

theorem replaceFrom_separator {c : Char} (hc : c ∈ [' ', '(', ')']) (before after : Text) :
    Text.replaceFrom p put 0 (before ++ c :: after) =
      Text.replaceFrom p put 0 before ++ c :: Text.replaceFrom p put 0 after :=
  Text.replaceFrom_append_cons (ne_nil_of_readable_sym hp) (not_mem_of_readable_sym hp hc) after
    (Nat.zero_le _)

theorem replaceFrom_cons {c : Char} (hc : c ∈ [' ', '(', ')']) (after : Text) :
    Text.replaceFrom p put 0 (c :: after) = c :: Text.replaceFrom p put 0 after :=
  replaceFrom_separator hp put hc [] after

theorem replaceFrom_append_renderRest (es : List Expr) (before : Text) :
    Text.replaceFrom p put 0 (before ++ renderRest es) =
      Text.replaceFrom p put 0 before ++ Text.replaceFrom p put 0 (renderRest es) := by
  cases es with
  | nil =>
    have hsep := replaceFrom_separator hp put (c := ')') (by simp) before []
    rw [← replaceFrom_cons hp put (by simp)] at hsep
    exact hsep
  | cons e es =>
    rw [renderRest, List.cons_append, replaceFrom_separator hp put (by simp),
      replaceFrom_cons hp put (by simp)]

theorem replaceFrom_renderRest {f g : Expr → Expr} : ∀ {es : List Expr},
    (∀ e ∈ es, Text.replaceFrom p put 0 (f e).render = (g e).render) →
      Text.replaceFrom p put 0 (renderRest (es.map f)) = renderRest (es.map g)
  | [], _ => replaceFrom_cons hp put (c := ')') (by simp) []
  | e :: es, h => by
    rw [List.map_cons, List.map_cons, renderRest, renderRest, List.cons_append,
      replaceFrom_cons hp put (by simp), replaceFrom_append_renderRest hp put, h e (by simp),
      replaceFrom_renderRest fun d hd => h d (by simp [hd])]
    rfl

theorem replaceFrom_render_list {f g : Expr → Expr} {es : List Expr}
    (h : ∀ e ∈ es, Text.replaceFrom p put 0 (f e).render = (g e).render) :
    Text.replaceFrom p put 0 (list (es.map f)).render = (list (es.map g)).render := by
  cases es with
  | nil =>
    have hclose := replaceFrom_cons hp put (c := ')') (by simp) []
    exact (replaceFrom_cons hp put (c := '(') (by simp) [')']).trans (congrArg ('(' :: ·) hclose)
  | cons e es =>
    rw [List.map_cons, List.map_cons, render, render, List.cons_append,
      replaceFrom_cons hp put (by simp), replaceFrom_append_renderRest hp put, h e (by simp),
      replaceFrom_renderRest hp put fun d hd => h d (by simp [hd])]
    rfl

end OneParameter

/-- Replacing one more parameter in the text instantiates one more symbol: the
leaves in which its letters occur are itself, and they do not occur in what the
parameters before it brought in. -/
theorem replaceFrom_render_instantiate {done : List (Text × Expr)} {p : Text} {a : Expr}
    (hp : (sym p).Readable) (hnew : p ∉ done.map Prod.fst)
    (hdone : ∀ b ∈ done, ¬ p <:+: b.2.render) {e : Expr} (he : e.Readable)
    (hq : e.holdsNoQuote = true) (hleaf : ∀ l ∈ e.leaves, p <:+: l.render → l = sym p) :
    Text.replaceFrom p a.render 0 (e.instantiate done).render =
      (e.instantiate (done ++ [(p, a)])).render := by
  induction he with
  | @num t _ =>
    have hno : ¬ p <:+: t := fun h => nomatch hleaf (num t) (by simp [leaves]) h
    exact Text.replaceFrom_of_not_infix hno
  | @str t _ =>
    have hno : ¬ p <:+: t := fun h => nomatch hleaf (str t) (by simp [leaves]) h
    exact Text.replaceFrom_of_not_infix hno
  | @sym n _ =>
    simp only [instantiate, List.lookup_append]
    cases hb : done.lookup n with
    | some b => exact Text.replaceFrom_of_not_infix (hdone (n, b) (mem_of_lookup hb))
    | none =>
      by_cases hn : n = p
      · subst hn
        simpa [render] using Text.replaceFrom_self a.render (ne_nil_of_readable_sym hp)
      · have hno : ¬ p <:+: n := fun h => hn (by simpa using hleaf (sym n) (by simp [leaves]) h)
        have hnone : [(p, a)].lookup n = none := by simpa using hn
        simpa [hnone, render] using Text.replaceFrom_of_not_infix hno
  | quote _ => cases hq
  | @list es hes ih =>
    rw [instantiate_list, instantiate_list]
    refine replaceFrom_render_list hp a.render fun e he => ?_
    refine ih e he (holdsNoQuote_list.1 hq e he) fun l hl => hleaf l ?_
    exact leaves_list es ▸ List.mem_flatMap.2 ⟨e, he, hl⟩
  | func h => exact h.elim

/-! ### All parameters -/

/-- What is bound is as a reader makes it. -/
def Bindings (σ : List (Text × Expr)) : Prop := ∀ b ∈ σ, (sym b.1).Readable ∧ b.2.Readable

/-- Replacing one parameter after the other instantiates them all. -/
theorem foldl_replaceAll_render {e : Expr} (he : e.Readable) (hq : e.holdsNoQuote = true) :
    ∀ {todo : List (Text × Expr)} (done : List (Text × Expr)), Bindings todo →
      ((done ++ todo).map Prod.fst).Nodup →
      (∀ l ∈ e.leaves, ∀ b ∈ todo, b.1 <:+: l.render → l = sym b.1) →
      (done ++ todo).Pairwise (fun b d => ¬ d.1 <:+: b.2.render) →
      todo.foldl (fun text b => Text.replaceAll b.1 b.2.render text) (e.instantiate done).render =
        (e.instantiate (done ++ todo)).render
  | [], done, _, _, _, _ => by rw [List.append_nil, List.foldl_nil]
  | b :: todo, done, hb, hnodup, hleaf, hfree => by
    have hp := (hb b (by simp)).1
    have hnew : b.1 ∉ done.map Prod.fst := by
      rw [List.map_append, List.map_cons] at hnodup
      exact fun h => (List.nodup_append.1 hnodup).2.2 _ h _ (by simp) rfl
    have hdone : ∀ d ∈ done, ¬ b.1 <:+: d.2.render := fun d hd =>
      (List.pairwise_append.1 hfree).2.2 d hd b (by simp)
    have hone : Text.replaceAll b.1 b.2.render (e.instantiate done).render =
        (e.instantiate (done ++ [b])).render := by
      rw [Text.replaceAll, if_neg (by simpa using ne_nil_of_readable_sym hp)]
      exact replaceFrom_render_instantiate hp hnew hdone he hq fun l hl => hleaf l hl b (by simp)
    rw [List.append_cons] at hnodup hfree ⊢
    rw [List.foldl_cons, hone]
    exact foldl_replaceAll_render he hq (done ++ [b]) (fun d hd => hb d (by simp [hd])) hnodup
      (fun l hl d hd => hleaf l hl d (by simp [hd])) hfree

theorem Shaped.instantiate {P : Procedure → Prop} {σ : List (Text × Expr)}
    (hσ : ∀ b ∈ σ, b.2.Shaped P) {e : Expr} (he : e.Shaped P) (hq : e.holdsNoQuote = true) :
    (e.instantiate σ).Shaped P := by
  induction he with
  | num ht => simpa only [Expr.instantiate] using Shaped.num ht
  | str ht => simpa only [Expr.instantiate] using Shaped.str ht
  | @sym n hn =>
    rw [Expr.instantiate]
    cases h : σ.lookup n with
    | none => exact .sym hn
    | some a => exact hσ _ (mem_of_lookup h)
  | quote _ => cases hq
  | list _ ih =>
    rw [instantiate_list]
    refine .list fun e he => ?_
    obtain ⟨d, hd, rfl⟩ := List.mem_map.1 he
    exact ih d hd (holdsNoQuote_list.1 hq d hd)
  | func hp => simpa only [Expr.instantiate] using Shaped.func hp

/-- The marks that the arguments bring in are all there are. -/
theorem unquoted_instantiate {P : Procedure → Prop} (σ : List (Text × Expr)) {e : Expr}
    (he : e.Shaped P) (hq : e.holdsNoQuote = true) :
    (e.instantiate σ).unquoted = e.instantiate (σ.map fun b => (b.1, b.2.unquoted)) := by
  induction he with
  | num _ | str _ | func _ => simp only [Expr.instantiate, unquoted]
  | @sym n _ =>
    rw [Expr.instantiate, Expr.instantiate]
    induction σ with
    | nil => rfl
    | cons b σ ih =>
      obtain ⟨p, a⟩ := b
      by_cases hn : n = p
      · simp [hn]
      · have hne : (n == p) = false := by simpa using hn
        simpa only [List.map_cons, List.lookup_cons, hne] using ih
  | quote _ => cases hq
  | list _ ih =>
    rw [instantiate_list, unquoted_list, instantiate_list, List.map_map]
    exact congrArg list (List.map_congr_left fun e he => ih e he (holdsNoQuote_list.1 hq e he))

section Clashless

variable {body : Expr} (hbody : body.Readable) {σ : List (Text × Expr)} (hσ : Bindings σ)
  (hnodup : (σ.map Prod.fst).Nodup)
  (hleaf : ∀ l ∈ body.unquoted.leaves, ∀ b ∈ σ, b.1 <:+: l.render → l = sym b.1)
  (hfree : σ.Pairwise fun b d => ¬ d.1 <:+: b.2.render)
include hbody hσ hnodup hleaf hfree

/-- The text that a body becomes is that of the body with its leaves replaced. -/
theorem substitute_eq_render : substitute body (σ.map fun b => sym b.1) (σ.map Prod.snd) =
    (body.unquoted.instantiate σ).render := by
  have hzip : (σ.map fun b => sym b.1).zip (σ.map Prod.snd) = σ.map fun b => (sym b.1, b.2) :=
    List.zip_map'
  have hfold := foldl_replaceAll_render hbody.unquoted (holdsNoQuote_unquoted hbody) [] hσ hnodup
    hleaf hfree
  rw [instantiate_nil, render_unquoted hbody, List.nil_append] at hfold
  rw [substitute, hzip, List.foldl_map]
  exact hfold

theorem spells_substitute : Spells (substitute body (σ.map fun b => sym b.1) (σ.map Prod.snd))
    (body.unquoted.instantiate (σ.map fun b => (b.1, b.2.unquoted))) := by
  have hq := holdsNoQuote_unquoted hbody
  have hshaped : (body.unquoted.instantiate σ).Readable :=
    hbody.unquoted.instantiate (fun b h => (hσ b h).2) hq
  rw [substitute_eq_render hbody hσ hnodup hleaf hfree, ← unquoted_instantiate σ hbody.unquoted hq]
  exact hshaped.spells

/-- Applying a function is evaluating its body with its leaves replaced. -/
theorem applyFunction_eq (ev : Expr → Eval Expr) {first : Expr} {rest : List Expr}
    (hlist : body = list (first :: rest)) :
    let params := σ.map fun b => sym b.1
    applyFunction ev [lambda, list params, body] (σ.map Prod.snd) =
      (Eval.note fun _ => .applied (list [lambda, list params, body])
        (substitute body params (σ.map Prod.snd))) >>= fun _ =>
      ev (body.unquoted.instantiate (σ.map fun b => (b.1, b.2.unquoted))) := by
  intro params
  have hread := (spells_substitute hbody hσ hnodup hleaf hfree).read
  have hcount : ¬ (σ.map Prod.snd).length ≠ (list params).itemsOrNone.length := by
    simp [itemsOrNone, params]
  have hlambda : (!lambda.isLambda) = false := by rw [(isLambda_iff lambda).2 rfl]; rfl
  subst hlist
  simp only [applyFunction, hlambda, if_neg hcount, Bool.false_eq_true, if_false]
  rw [show (list params).itemsOrNone = params from rfl, hread]
  simp only [Eval.ofExcept, pure_bind]

end Clashless

/-- **Applying by text is applying by leaves** where no name clashes: where a
leaf of the body in which a parameter's letters occur is that parameter, and no
later parameter's letters occur in an earlier argument. Then the text that the
body becomes can be cut into lexemes to its end, what is read of them is the body
with its leaves replaced, without marks, and no lexeme is left behind it. -/
theorem readAll_substitute {body : Expr} (hbody : body.Produced) {σ : List (Text × Expr)}
    (hσ : ∀ b ∈ σ, (sym b.1).Produced ∧ b.2.Produced) (hnodup : (σ.map Prod.fst).Nodup)
    (hleaf : ∀ l ∈ body.unquoted.leaves, ∀ b ∈ σ, b.1 <:+: l.render → l = sym b.1)
    (hfree : σ.Pairwise fun b d => ¬ d.1 <:+: b.2.render) :
    let source := substitute body (σ.map fun b => sym b.1) (σ.map Prod.snd)
    let e := body.unquoted.instantiate (σ.map fun b => (b.1, b.2.unquoted))
    (Lexeme.scan source).fault = none ∧
      Reader.firstFrom [] (Lexeme.scan source).lexemes = .ok (e, []) ∧
      read source = .ok e ∧ readAll source = ⟨[e], none⟩ := by
  intro source e
  have hbind : Bindings σ := fun b h => (hσ b h).imp produced_iff.1 produced_iff.1
  have hspells := spells_substitute (produced_iff.1 hbody) hbind hnodup hleaf hfree
  exact ⟨hspells.firstFrom.1, hspells.firstFrom.2, hspells.read, hspells.readAll⟩

/-- A mark in the body and one in an argument, a parameter that is rebound in
the body, and an earlier parameter in a later argument. -/
theorem readAll_substitute_marks :
    let body : Expr := list [sym "f", quote "(lambda (x) (x y \"(\"))", sym "x"]
    let σ : List (Text × Expr) :=
      [("x", list [sym "g", quote "(1 ())", num "-2."]), ("y", list [sym "h", sym "x"])]
    let x : Expr := list [sym "g", list [num "1", list []], num "-2."]
    let source := substitute body [sym "x", sym "y"] (σ.map Prod.snd)
    let e : Expr := list [sym "f",
      list [sym "lambda", list [x], list [x, list [sym "h", sym "x"], str "\"(\""]], x]
    (body.Produced ∧ (∀ b ∈ σ, (sym b.1).Produced ∧ b.2.Produced) ∧ (σ.map Prod.fst).Nodup ∧
      (∀ l ∈ body.unquoted.leaves, ∀ b ∈ σ, b.1 <:+: l.render → l = sym b.1) ∧
      σ.Pairwise fun b d => ¬ d.1 <:+: b.2.render) ∧
    (Lexeme.scan source).fault = none ∧
      Reader.firstFrom [] (Lexeme.scan source).lexemes = .ok (e, []) := by
  intro body σ x source e
  have hbody : body.Produced :=
    ⟨"(f '(lambda (x) (x y \"(\")) x)".toList, Or.inl (by decide +kernel)⟩
  have hσ : ∀ b ∈ σ, (sym b.1).Produced ∧ b.2.Produced := by
    intro b hb
    rcases List.mem_cons.1 hb with rfl | hb
    · exact ⟨⟨"x".toList, Or.inl (by decide +kernel)⟩,
        ⟨"(g '(1 ()) -2.)".toList, Or.inl (by decide +kernel)⟩⟩
    · obtain rfl := List.mem_singleton.1 hb
      exact ⟨⟨"y".toList, Or.inl (by decide +kernel)⟩,
        ⟨"(h x)".toList, Or.inl (by decide +kernel)⟩⟩
  have hnodup : (σ.map Prod.fst).Nodup := by decide +kernel
  have hleaf : ∀ l ∈ body.unquoted.leaves, ∀ b ∈ σ, b.1 <:+: l.render → l = sym b.1 := by
    decide +kernel
  have hfree : σ.Pairwise fun b d => ¬ d.1 <:+: b.2.render := by decide +kernel
  have he : body.unquoted.instantiate (σ.map fun b => (b.1, b.2.unquoted)) = e := by decide +kernel
  obtain ⟨hfault, hfirst, -, -⟩ := readAll_substitute hbody hσ hnodup hleaf hfree
  rw [he] at hfirst
  exact ⟨⟨hbody, hσ, hnodup, hleaf, hfree⟩, hfault, hfirst⟩

end Expr

end SpliceLisp
