/-
# Lists that are evaluated once

A list that is no call is evaluated item by item, and then once more if the text
of the values mentions `lambda` and is another than before. It is a search for
letters that decides, so a string with these letters leads to a second pass over
all the items (`evaluate_list_ne`).

The second pass changes nothing if the values are *inert*: numbers, strings,
symbols that are bound to themselves, and lists of such, without the symbol
`lambda` (`evaluate_list_of_inert`). An inert expression is its own value,
whatever is kept, and so it is the value of every expression with the same text:
these differ from it by marks only (`Facts.yields_inert`). That is a fact of the
kind that evaluation respects (`Facts.ofInert`), so it still holds after the
items have been evaluated, whatever they are.

Key definitions: `Inert`, `Facts.ofInert`.
Key theorems: `Facts.yields_inert`, `Facts.sound_ofInert`, `evaluate_list_of_inert`.
-/
import Mathlib
import SpliceLisp.Proofs.Alike
import SpliceLisp.Proofs.Cache
import SpliceLisp.Proofs.Substitution

namespace SpliceLisp

open Eval

/-- A number, a string, a symbol other than `lambda` that is its own value, or a
list of such. The symbols that are their own values are those with a name in
`own`. -/
inductive Inert (own : Text → Prop) : Expr → Prop
  | num {t : Text} : Inert own (.num t)
  | str {t : Text} : Inert own (.str t)
  | sym {n : Text} : own n → n ≠ Expr.lambdaName → Inert own (.sym n)
  | list {es : List Expr} : (∀ e ∈ es, Inert own e) → Inert own (.list es)

namespace Inert

variable {own : Text → Prop} {e : Expr}

theorem items {es : List Expr} (h : Inert own (.list es)) : ∀ e ∈ es, Inert own e := by
  cases h with
  | list h => exact h

theorem ne_func (h : Inert own e) (p : Procedure) : e ≠ .func p := by
  rintro rfl
  cases h

theorem holdsNoQuote (h : Inert own e) : e.holdsNoQuote = true := by
  induction h with
  | num | str | sym => rfl
  | list _ ih => exact Expr.holdsNoQuote_list.2 ih

theorem procedureless (h : Inert own e) : e.Procedureless := by
  induction h with
  | num => exact .num _
  | str => exact .str _
  | sym => exact .sym _
  | list _ ih => exact .list ih

theorem readable (h : Inert own e) (hw : e.WellFormed) : e.Readable :=
  Expr.readable_iff.2 ⟨hw, h.procedureless⟩

theorem ne_lambda (h : Inert own e) : e ≠ .lambda := by
  rintro rfl
  cases h with
  | sym _ hne => exact hne rfl

theorem isFunction (h : Inert own e) : e.isFunction = false := by
  rcases e with _ | _ | _ | _ | ⟨_ | ⟨head, tail⟩⟩ | _
  case list.cons =>
    rw [Expr.isFunction, ← Bool.not_eq_true, Expr.isLambda_iff]
    exact (h.items head (by simp)).ne_lambda
  all_goals rfl

end Inert

/-! ### Expressions of one text -/

/-- What has the text of a readable expression with nothing deferred is that
expression but for its marks. -/
theorem Expr.unquoted_of_render_eq {e d : Expr} (he : e.WellFormed) (hd : d.Readable)
    (hq : d.holdsNoQuote = true) (h : e.render = d.render) : e.Readable ∧ e.unquoted = d := by
  have hread : Expr.read d.render = .ok d := by
    rw [Expr.read_render hd, Expr.unquoted_eq_self hd hq]
  have hp : e.Procedureless := (Expr.procedureless_iff he).2 ⟨d, by rw [h, hread], h.symm⟩
  have hr : e.Readable := Expr.readable_iff.2 ⟨he, hp⟩
  have hsame := Expr.read_render hr
  rw [h, hread] at hsame
  exact ⟨hr, (Except.ok.inj hsame).symm⟩

namespace Expr

variable {e : Expr} (hmark : ∀ t, e ≠ .quote t)
include hmark

/-- Only a mark can hide what is no list. -/
theorem eq_of_unquoted {d : Expr} (hd : d.isList = false) (h : e.unquoted = d) : e = d := by
  subst h
  cases e with
  | quote t => exact absurd rfl (hmark t)
  | list es => rw [unquoted_list] at hd; cases hd
  | _ => rfl

theorem exists_items_of_unquoted {ds : List Expr} (h : e.unquoted = .list ds) :
    ∃ es, e = .list es ∧ es.map unquoted = ds := by
  cases e with
  | quote t => exact absurd rfl (hmark t)
  | list es => exact ⟨es, rfl, by simpa using h⟩
  | _ => cases h

end Expr

theorem Expr.isFunction_unquoted {e : Expr} (h : e.isFunction = true) :
    e.unquoted.isFunction = true := by
  rcases e with _ | _ | _ | _ | ⟨_ | ⟨head, tail⟩⟩ | _
  case list.cons =>
    rw [Expr.isFunction, Expr.isLambda_iff] at h
    subst h
    rfl
  all_goals cases h

/-! ### Inert expressions are their own values -/

namespace Facts

variable {F : Facts} {c : Context}

section Rows

variable {ev : Nat → Expr → Eval Expr}

theorem Yields.evaluateEach {es vs : List Expr}
    (h : List.Forall₂ (fun e v => ∀ c, F.HoldIn c → F.Yields c (fun k => ev k e) v) es vs)
    (hc : F.HoldIn c) : F.Yields c (fun k => SpliceLisp.evaluateEach (ev k) es) vs := by
  induction h generalizing c with
  | nil => exact .pure hc []
  | cons he _ ih =>
    refine (he c hc).bind fun d hd => ?_
    exact (ih hd.right).bind fun d' hd' => .pure hd'.right _

/-- A list whose items yield values, and which then looks as before, yields the
list of these. -/
theorem Yields.items {head v : Expr} {tail vs : List Expr} (hc : F.HoldIn c)
    (hhead : head.isFunction = false) (hv : ∀ p, v ≠ .func p)
    (h : List.Forall₂ (fun e v => ∀ c, F.HoldIn c → F.Yields c (fun k => ev k e) v)
      (head :: tail) (v :: vs))
    (htext : (Expr.list (v :: vs)).render = (Expr.list (head :: tail)).render) :
    F.Yields c (fun k => evaluateList (ev k) (head :: tail)) (.list (v :: vs)) := by
  simp only [evaluateList, hhead]
  refine ((List.forall₂_cons.1 h).1 c hc).bind fun d hd => ?_
  have hrest : F.Yields d (fun k => do
      let result := Expr.list (← SpliceLisp.evaluateEach (ev k) (head :: tail))
      if needsAnotherPass (Expr.list (head :: tail)).render result.render then ev k result
      else return result) (.list (v :: vs)) := by
    refine (Yields.evaluateEach h hd.right).bind fun d' hd' => ?_
    have honce : needsAnotherPass (Expr.list (head :: tail)).render
        (Expr.list (v :: vs)).render = false := by
      simp [needsAnotherPass, htext]
    simp only [honce]
    exact .pure hd'.right _
  cases v with
  | func p => exact absurd rfl (hv p)
  | _ => exact hrest

end Rows

/-- If what has the text of `d` yields a value, but for marks in front, then it
does with such marks. -/
theorem Yields.of_text (hF : F.Consistent) {d v : Expr} (hd : d.Readable)
    (hq : d.holdsNoQuote = true) (hv : F.value d.render v)
    (hstep : ∀ {e : Expr} {c : Context}, (∀ t, e ≠ .quote t) → e.Readable → e.unquoted = d →
      F.HoldIn c → F.Yields c (fun k => dispatch (fun d => SpliceLisp.evaluate k d) e) v)
    {e : Expr} (he : e.WellFormed) (htext : e.render = d.render) (hc : F.HoldIn c) :
    F.Yields c (fun k => SpliceLisp.evaluate k e) v := by
  obtain ⟨hr, hu⟩ := Expr.unquoted_of_render_eq he hd hq htext
  have hself : F.Yields c (fun k => SpliceLisp.evaluate k d) v := by
    refine .evaluate hF hc hv (hstep (fun t ht => ?_) hd (Expr.unquoted_eq_self hd hq) hc)
    subst ht
    cases hq
  refine .evaluate hF hc (htext ▸ hv) ?_
  by_cases hmark : ∃ t, e = .quote t
  · obtain ⟨t, rfl⟩ := hmark
    have hread : Expr.read t = .ok d := by
      rw [show t = d.render from htext, Expr.read_render hd, Expr.unquoted_eq_self hd hq]
    simpa only [dispatch_quote hread] using hself
  · exact hstep (fun t ht => hmark ⟨t, ht⟩) hr hu hc

section Inert

variable {own : Text → Prop} (hF : F.Consistent)
  (hvalue : ∀ {d : Expr}, d.WellFormed → Inert own d → F.value d.render d)
  (hown : ∀ {n : Text}, own n → F.binding n (.sym n))
include hF hvalue hown

/-- **An inert expression is the value of every expression with its text.** -/
theorem yields_inert {d : Expr} (h : Inert own d) : ∀ {e : Expr} {c : Context}, d.WellFormed →
    e.WellFormed → e.render = d.render → F.HoldIn c → F.Yields c (fun k => evaluate k e) d := by
  induction h with
  | @num t =>
    intro e c hd
    refine .of_text hF ((Inert.num : Inert own _).readable hd) rfl (hvalue hd .num) ?_
    intro e c hmark _ hu hc
    rw [Expr.eq_of_unquoted hmark rfl hu]
    exact .pure hc _
  | @str t =>
    intro e c hd
    refine .of_text hF ((Inert.str : Inert own _).readable hd) rfl (hvalue hd .str) ?_
    intro e c hmark _ hu hc
    rw [Expr.eq_of_unquoted hmark rfl hu]
    exact .pure hc _
  | @sym n hn hne =>
    intro e c hd
    have hd' : Inert own (.sym n) := .sym hn hne
    refine .of_text hF (hd'.readable hd) rfl (hvalue hd hd') ?_
    intro e c hmark _ hu hc
    rw [Expr.eq_of_unquoted hmark rfl hu]
    exact (Yields.global hc (hown hn)).bind fun d hd => .pure hd.right _
  | @list ds hds ih =>
    intro e c hd
    have hd' : Inert own (.list ds) := .list hds
    refine .of_text hF (hd'.readable hd) hd'.holdsNoQuote (hvalue hd hd') ?_
    intro e c hmark he hu hc
    obtain ⟨es, rfl, rfl⟩ := Expr.exists_items_of_unquoted hmark hu
    have hall : List.Forall₂ (fun e v => ∀ c, F.HoldIn c → F.Yields c (fun k => evaluate k e) v) es
        (es.map Expr.unquoted) := by
      refine List.forall₂_map_right_iff.2 (List.forall₂_same.2 fun e hm c hc => ?_)
      have hr : e.Readable := he.items e hm
      have hm' : e.unquoted ∈ es.map Expr.unquoted := List.mem_map_of_mem hm
      exact ih _ hm' (hd.items _ hm') hr.wellFormed (Expr.render_unquoted hr).symm hc
    cases es with
    | nil => exact .pure hc _
    | cons head tail =>
      have hhead : Inert own head.unquoted := hds _ (by simp)
      have hfunction : head.isFunction = false := by
        cases hf : head.isFunction with
        | false => rfl
        | true => exact absurd (Expr.isFunction_unquoted hf) (by simp [hhead.isFunction])
      exact Yields.items hc hfunction hhead.ne_func hall
        (Expr.render_list_congr fun e hm => Expr.render_unquoted (he.items e hm))

end Inert

/-- The symbols with a name in `own` stay bound to themselves, and inert
expressions are their own values. -/
def ofInert (own : Text → Prop) : Facts where
  binding name v := own name ∧ v = .sym name
  value text v := v.WellFormed ∧ Inert own v ∧ v.render = text
  admitted _ := True

theorem consistent_ofInert (own : Text → Prop) : (ofInert own).Consistent where
  unique := by
    rintro _ v w ⟨hv, hiv, htext⟩ ⟨hw, hiw, rfl⟩
    exact Expr.render_inj (hiv.readable hv) (hiw.readable hw) hiv.holdsNoQuote hiw.holdsNoQuote
      htext
  wellFormed h := h.1

theorem sound_ofInert (own : Text → Prop) : (ofInert own).Sound where
  toConsistent := consistent_ofInert own
  yields he _ hv hc := yields_inert (consistent_ofInert own) (fun hw h => ⟨hw, h, rfl⟩)
    (fun hn => ⟨hn, rfl⟩) hv.2.1 hv.1 he hv.2.2.symm hc

end Facts

/-! ### Lists of values -/

theorem Run.mem_boundNames {α : Type} {r : Run α} {name : Text} :
    name ∈ r.boundNames ↔ ∃ v, .bound name v ∈ r.events := by
  simp only [boundNames, List.mem_filterMap]
  constructor
  · rintro ⟨event, hevent, h⟩
    cases event with
    | bound n v => exact ⟨v, Option.some.inj h ▸ hevent⟩
    | _ => cases h
  · rintro ⟨v, hv⟩
    exact ⟨_, hv, rfl⟩

section Lists

variable {depth : Nat} {c d : Context}

/-- The head of a list has been evaluated when all items are, and evaluating it
before them changes neither the values nor the context. -/
theorem evaluateEach_again {head : Expr} {tail vs : List Expr} {es : List Event}
    (h : evaluateEach (evaluate depth) (head :: tail) c = ⟨.ok vs, d, es⟩) :
    ∃ v rest c1 es1 es2, vs = v :: rest ∧ evaluate depth head c = ⟨.ok v, c1, es1⟩ ∧
      evaluateEach (evaluate depth) (head :: tail) c1 = ⟨.ok vs, d, es2⟩ := by
  cases hhead : evaluate depth head c with
  | mk outcome c1 es1 =>
  cases outcome with
  | error s => rw [evaluateEach, bind_error hhead] at h; cases h
  | ok v =>
    cases htail : evaluateEach (evaluate depth) tail c1 with
    | mk outcome d1 es2 =>
    cases outcome with
    | error s => rw [evaluateEach, bind_ok hhead, bind_error htail] at h; cases h
    | ok rest =>
      rw [evaluateEach, bind_ok hhead, bind_ok htail] at h
      cases h
      have hagain : evaluateEach (evaluate depth) (head :: tail) c1 =
          ⟨.ok (v :: rest), d1, [.entered head c1, .returned head v c1] ++ (es2 ++ [])⟩ := by
        rw [evaluateEach, bind_ok (evaluate_again hhead), bind_ok htail]
        rfl
      exact ⟨v, rest, c1, es1, _, rfl, rfl, hagain⟩

/-- A list whose items have values comes to the list of these, if that is still so
after another pass, should there be one. -/
theorem Reaches.evaluateList {head : Expr} {tail vs : List Expr} {P Q : Context → Prop}
    (hhead : head.isFunction = false) (hfunc : ∀ p, vs.head? ≠ some (.func p))
    (h : Reaches c (fun k => evaluateEach (SpliceLisp.evaluate k) (head :: tail)) (.ok vs) P)
    (hagain : ∀ d, P d → Reaches d (fun k =>
      if needsAnotherPass (Expr.list (head :: tail)).render (Expr.list vs).render
        then SpliceLisp.evaluate k (.list vs) else return .list vs) (.ok (.list vs)) Q) :
    Reaches c (fun k => SpliceLisp.evaluateList (SpliceLisp.evaluate k) (head :: tail))
      (.ok (.list vs)) Q := by
  obtain ⟨⟨_, d, es⟩, ⟨N, hN⟩, rfl, hP⟩ := h
  obtain ⟨v, rest, c1, es1, es2, rfl, hv, hall⟩ := evaluateEach_again (hN N le_rfl)
  have hfirst : Reaches c (fun k => SpliceLisp.evaluate k head) (.ok v) (· = c1) :=
    ⟨_, settles_evaluate (n := N) (by rw [hv]; nofun), by rw [hv], by rw [hv]⟩
  have heach : Reaches c1 (fun k => evaluateEach (SpliceLisp.evaluate k) (head :: tail))
      (.ok (v :: rest)) P :=
    ⟨_, ⟨N, fun k hk => (evaluateEach_eq_of_le hk (by rw [hall]; nofun)).trans hall⟩, rfl, hP⟩
  have hrest : Reaches c1 (fun k => do
      let result := Expr.list (← evaluateEach (SpliceLisp.evaluate k) (head :: tail))
      if needsAnotherPass (Expr.list (head :: tail)).render result.render
        then SpliceLisp.evaluate k result else return result) (.ok (.list (v :: rest))) Q :=
    heach.bind hagain
  simp only [SpliceLisp.evaluateList, hhead]
  refine hfirst.bind ?_
  rintro _ rfl
  cases v with
  | func p => exact absurd rfl (hfunc p)
  | _ => exact hrest

end Lists

/-- **A list that merely mentions `lambda` is the list of the values of its
items.** Between turns, take a list that is not headed by a function or by what
has a procedure for its value, and whose items have values, one after the other.
If the text of the values does not mention `lambda`, or is the text of the list
itself, or if the values are inert (with the symbols that are bound to themselves
and that no item binds), then the list has the list of these values for its
value. -/
theorem evaluate_list_of_inert {c : Context} (hc : c.WellFormed) (hcache : c.cache = ∅)
    {head : Expr} {tail vs : List Expr} {depth : Nat} (hes : ∀ e ∈ head :: tail, e.WellFormed)
    (hhead : head.isFunction = false)
    (hvs : (evaluateEach (evaluate depth) (head :: tail) c).outcome = .ok vs)
    (hfunc : ∀ p, vs.head? ≠ some (.func p))
    (hpass : Text.mentions Expr.lambdaName (Expr.list vs).render = false ∨
      (Expr.list vs).render = (Expr.list (head :: tail)).render ∨
        ∀ v ∈ vs, Inert (fun name => c.globals.get? name = some (.sym name) ∧
          name ∉ (evaluateEach (evaluate depth) (head :: tail) c).boundNames) v) :
    ∃ N, ∀ k ≥ N, (evaluate k (.list (head :: tail)) c).outcome = .ok (.list vs) := by
  cases hrun : evaluateEach (evaluate depth) (head :: tail) c with
  | mk outcome d es =>
  rw [hrun] at hvs hpass
  obtain rfl : outcome = .ok vs := hvs
  have heach : Reaches c (fun k => evaluateEach (evaluate k) (head :: tail)) (.ok vs) (d = ·) :=
    ⟨_, ⟨depth, fun k hk => (evaluateEach_eq_of_le hk (by rw [hrun]; nofun)).trans hrun⟩, rfl, rfl⟩
  have hlist : Reaches c (fun k => evaluateList (evaluate k) (head :: tail)) (.ok (.list vs))
      fun _ => True := by
    refine heach.evaluateList hhead hfunc ?_
    rintro _ rfl
    split
    case isFalse => exact .pure trivial _
    case isTrue hpasses =>
    obtain hno | hsame | hinert := hpass
    · simp [needsAnotherPass, hno] at hpasses
    · simp [needsAnotherPass, hsame] at hpasses
    · -- The items leave a context in which the list of the values is still inert.
      let own : Text → Prop := fun name =>
        c.globals.get? name = some (.sym name) ∧ name ∉ (Run.boundNames ⟨.ok vs, d, es⟩)
      have hF : (Facts.ofInert own).Sound := Facts.sound_ofInert own
      have hholds : (Facts.ofInert own).HoldIn c :=
        Facts.holdIn_of_cache hc hcache (by rintro name _ ⟨hn, rfl⟩; exact hn.1)
      have hrespected : (Facts.ofInert own).Respected (⟨.ok vs, d, es⟩ : Run (List Expr)) := by
        refine ⟨nofun, fun event hevent => ?_⟩
        cases event with
        | bound name v =>
          rintro w ⟨hn, -⟩
          exact absurd (Run.mem_boundNames.2 ⟨v, hevent⟩) hn.2
        | _ => trivial
      have hsim := Facts.congruence_simulates.evaluateEach
        (fun e he => hF.simulates_evaluate depth e he) hes c c hholds.alike
      rw [hrun] at hsim
      obtain ⟨hfine, _, -, -, hd⟩ := hsim hrespected
      have hw : (Expr.list vs).WellFormed := .list fun v hv => (hfine vs rfl v hv).good
      exact (hF.yields hw trivial ⟨hw, .list hinert, rfl⟩ hd.left).reaches.mono fun _ _ => trivial
  exact hlist.outcome_evaluate (by rw [hcache]; rfl)

/-- A string with the letters, a sum and a truth value in a new session. There is
a second pass, as the sum looks different then. -/
theorem evaluate_list_of_inert_sum :
    let head : Expr := .str "\"lambda\""
    let tail : List Expr := [.list [.sym "+", .num "1", .num "2"], .sym "#t"]
    let vs : List Expr := [.str "\"lambda\"", .num "3", .sym "#t"]
    let items := evaluateEach (evaluate 9) (head :: tail) Context.startup
    let own : Text → Prop := fun name =>
      Context.startup.globals.get? name = some (.sym name) ∧ name ∉ items.boundNames
    (Context.startup.WellFormed ∧ Context.startup.cache = ∅ ∧
      (∀ e ∈ head :: tail, e.WellFormed) ∧ head.isFunction = false ∧ items.outcome = .ok vs ∧
      (∀ p, vs.head? ≠ some (.func p)) ∧ ∀ v ∈ vs, Inert own v) ∧
    needsAnotherPass (Expr.list (head :: tail)).render (Expr.list vs).render = true ∧
    ∃ N, ∀ k ≥ N, (evaluate k (.list (head :: tail)) Context.startup).outcome = .ok (.list vs) := by
  intro head tail vs items own
  have hread : Expr.read "(\"lambda\" (+ 1 2) #t)".toList = .ok (.list (head :: tail)) := by
    decide +kernel
  have hes : ∀ e ∈ head :: tail, e.WellFormed := (Expr.readable_of_read hread).wellFormed.items
  have hvs : items.outcome = .ok vs := by decide +kernel
  have hfunc : ∀ p, vs.head? ≠ some (.func p) := nofun
  have hown : own "#t".toList := by decide +kernel
  have hinert : ∀ v ∈ vs, Inert own v := by
    intro v hv
    rcases List.mem_cons.1 hv with rfl | hv
    · exact .str
    · rcases List.mem_cons.1 hv with rfl | hv
      · exact .num
      · exact List.mem_singleton.1 hv ▸ .sym hown (by decide)
  refine ⟨⟨Context.wellFormed_startup, rfl, hes, rfl, hvs, hfunc, hinert⟩, by decide +kernel, ?_⟩
  exact evaluate_list_of_inert Context.wellFormed_startup rfl hes rfl hvs hfunc
    (Or.inr (Or.inr hinert))

/-- In a new session, a deferred sum beside a string with the letters is worked
out by the second pass. The symbol `lambda` is neither in the values nor in what
is deferred there. -/
theorem evaluate_list_ne :
    let head : Expr := .str "\"lambda\""
    let tail : List Expr := [.list [.sym "quote", .list [.sym "+", .num "1", .num "2"]]]
    let vs : List Expr := [.str "\"lambda\"", .quote "(+ 1 2)"]
    let c := Context.startup
    (c.cache = ∅ ∧ (Expr.list (head :: tail)).Produced ∧ head.isFunction = false ∧
      (evaluateEach (evaluate 9) (head :: tail) c).outcome = .ok vs ∧
      (∀ p, vs.head? ≠ some (.func p)) ∧ ∀ v ∈ vs, Expr.lambda ∉ v.unquoted.leaves) ∧
    (evaluate 9 (.list (head :: tail)) c).outcome = .ok (.list [.str "\"lambda\"", .num "3"]) ∧
    ∀ k, (evaluate k (.list (head :: tail)) c).outcome ≠ .ok (.list vs) := by
  intro head tail vs c
  have hproduced : (Expr.list (head :: tail)).Produced :=
    ⟨"(\"lambda\" (quote (+ 1 2)))".toList, Or.inl (by decide +kernel)⟩
  have hitems : (evaluateEach (evaluate 9) (head :: tail) c).outcome = .ok vs := by decide +kernel
  have hleaves : ∀ v ∈ vs, Expr.lambda ∉ v.unquoted.leaves := by decide +kernel
  have hvalue : (evaluate 9 (.list (head :: tail)) c).outcome =
      .ok (.list [.str "\"lambda\"", .num "3"]) := by
    decide +kernel
  refine ⟨⟨rfl, hproduced, rfl, hitems, nofun, hleaves⟩, hvalue, fun k hk => ?_⟩
  have hdeep : evaluate (max k 9) (.list (head :: tail)) c = evaluate k (.list (head :: tail)) c :=
    evaluate_eq_of_le (le_max_left k 9) (by rw [hk]; nofun)
  rw [evaluate_eq_of_le (le_max_right k 9) (by rw [hvalue]; nofun)] at hdeep
  rw [hdeep, hk] at hvalue
  exact absurd hvalue (by decide)

end SpliceLisp
