/-
# Evaluation of the first-order language

In the first-order language the evaluator does what the direct meaning says
(`Direct.evaluate_eq_value`), although it keeps values under texts, evaluates
some values again and hands a context on from step to step.

The invariant is on the values that are kept: each is the meaning of a plain
expression with the text it is kept under (`Direct.Sound`). No two plain
expressions have one text, so what is found is the meaning of the expression
that looks. `Direct.Gives` says that an evaluation has a given outcome in every
sound context and leaves a sound one. It composes, and one round of evaluation
carries it from the parts to the whole (`Direct.gives_evaluate`).

Key definitions: `Direct.Sound`, `Direct.Gives`.
Key theorems: `Direct.gives_evaluate`, `Direct.gives_perform`,
`Direct.gives_clauses`, `Direct.eventually_gives`, `Direct.evaluate_eq_value`.
-/
import Mathlib
import SpliceLisp.Proofs.OnValues
import SpliceLisp.Proofs.Round

namespace SpliceLisp

namespace Direct

open Eval
open Primitive (compute)
open SpliceLisp.Expr (yes no)

/-! ### Sound contexts -/

/-- The globals are `g`, and each value that is kept is that of a plain
expression with the text it is kept under. -/
structure Sound (g : Table) (c : Context) : Prop where
  globals : c.globals = g
  cache : ∀ t v, c.cache.get? t = some v → ∃ e, Plain e ∧ e.render = t ∧ value g e = .ok v

/-- From every sound context the evaluation ends as `r` says, in a sound
context. -/
def Gives {α : Type} (g : Table) (m : Eval α) (r : Except Fault α) : Prop :=
  ∀ c, Sound g c → (m c).outcome = r.mapError Stop.fault ∧ Sound g (m c).context

section Composition

variable {α β : Type} {g : Table}

theorem Gives.pure (a : α) : Gives g (pure a) (.ok a) := fun _ hc => ⟨rfl, hc⟩

theorem Gives.fail (f : Fault) : Gives g (fail f : Eval α) (.error f) := fun _ hc => ⟨rfl, hc⟩

theorem Gives.ofExcept (r : Except Fault α) : Gives g (ofExcept r) r := by
  cases r with
  | ok a => exact Gives.pure a
  | error f => exact Gives.fail f

theorem Gives.announce (p : Procedure) : Gives g p.announce (.ok ()) := fun c hc => by
  rw [p.context_announce]
  exact ⟨p.outcome_announce c, hc⟩

theorem Gives.global? (name : Text) : Gives g (global? name) (.ok (g.get? name)) :=
  fun _ hc => ⟨congrArg (fun t : Table => Except.ok (t.get? name)) hc.globals, hc⟩

theorem Gives.bind {m : Eval α} {r : Except Fault α} {f : α → Eval β} {s : α → Except Fault β}
    (hm : Gives g m r) (hf : ∀ a, r = .ok a → Gives g (f a) (s a)) :
    Gives g (m >>= f) (r >>= s) := by
  intro c hc
  obtain ⟨ho, hs⟩ := hm c hc
  cases r with
  | ok a =>
    change (m c).outcome = .ok a at ho
    rw [bind_apply, ho]
    exact hf a rfl _ hs
  | error f =>
    change (m c).outcome = .error (.fault f) at ho
    rw [bind_apply, ho]
    exact ⟨rfl, hs⟩

theorem Sound.remember {c : Context} (hc : Sound g c) {e v : Expr} (he : Plain e)
    (hv : value g e = .ok v) : Sound g (c.remember e.render v) :=
  ⟨hc.globals, forall_kept_remember hc.cache ⟨e, he, rfl, hv⟩⟩

/-- A round gives the value if the step into the expression does. What it finds
instead is the same value: that of a plain expression with the same text. -/
theorem gives_evaluate {depth : Nat} {e : Expr} (he : Plain e)
    (h : Gives g (dispatch (fun e => evaluate depth e) e) (value g e)) :
    Gives g (evaluate (depth + 1) e) (value g e) := by
  intro c hc
  cases hget : c.cache.get? e.render with
  | some v =>
    obtain ⟨d, hd, htext, hv⟩ := hc.cache _ _ hget
    obtain rfl := Expr.render_inj hd.readable he.readable hd.quoteless he.quoteless htext
    rw [evaluate_of_kept hget, hv]
    exact ⟨rfl, hc⟩
  | none =>
    obtain ⟨ho, hs⟩ := h c hc
    generalize hrun : dispatch (fun e => evaluate depth e) e c = run at ho hs
    obtain ⟨outcome, d, es⟩ := run
    cases hv : value g e with
    | ok v =>
      obtain rfl : outcome = .ok v := by rw [hv] at ho; exact ho
      rw [evaluate_of_ok hget hrun]
      exact ⟨rfl, hs.remember he hv⟩
    | error f =>
      obtain rfl : outcome = .error (.fault f) := by rw [hv] at ho; exact ho
      rw [evaluate_of_error hget hrun]
      exact ⟨rfl, hs⟩

end Composition

/-! ### One step into an expression -/

section Step

variable {g : Table} {ev : Expr → Eval Expr}

theorem gives_evaluateEach : ∀ {es : List Expr}, (∀ e ∈ es, Gives g (ev e) (value g e)) →
    Gives g (evaluateEach ev es) (values g es)
  | [], _ => Gives.pure []
  | e :: es, h => by
    have hes : Gives g (evaluateEach ev es) (values g es) :=
      gives_evaluateEach fun d hd => h d (by simp [hd])
    exact (h e (by simp)).bind fun v _ => hes.bind fun vs _ => Gives.pure (v :: vs)

theorem gives_arguments {es : List Expr} (hp : ∀ e ∈ es, Plain e)
    (h : ∀ e ∈ es, Gives g (ev e) (value g e)) : Gives g (arguments ev es) (values g es) := by
  rw [arguments_eq_evaluateEach fun e he => (hp e he).ne_quote]
  exact gives_evaluateEach h

/-- The expression is plain, is its own value and is evaluated to that. -/
structure GivesItself (g : Table) (ev : Expr → Eval Expr) (v : Expr) : Prop where
  plain : Plain v
  value : value g v = .ok v
  gives : Gives g (ev v) (.ok v)

/-- The items of the value, if that is a list, are evaluated to themselves. -/
def GivesItems (g : Table) (ev : Expr → Eval Expr) (e : Expr) : Prop :=
  ∀ vs, value g e = .ok (.list vs) → ∀ v ∈ vs, GivesItself g ev v

theorem GivesItems.itemsOrNone {e v : Expr} (h : GivesItems g ev e) (hv : value g e = .ok v) :
    ∀ w ∈ v.itemsOrNone, GivesItself g ev w := by
  cases v with
  | list items => exact h items hv
  | _ => simp [Expr.itemsOrNone]

theorem gives_car {e : Expr} (h : Gives g (ev e) (value g e)) (hitems : GivesItems g ev e) :
    Gives g (compute ev [e] .car) (values g [e] >>= onValues .car) := by
  have hvalue : (values g [e] >>= onValues .car) =
      value g e >>= fun v => .ok (v.itemsOrNone.headD Expr.nil) := by
    simp only [values, bind_assoc, pure_bind, Primitive.onValues_car]
  rw [Primitive.compute_car, hvalue]
  refine h.bind fun v hv => ?_
  have hi := hitems.itemsOrNone hv
  cases hcases : v.itemsOrNone with
  | nil => exact Gives.pure _
  | cons first rest =>
    have hfirst := hi first (by simp [hcases])
    change Gives g (argument ev first) (.ok first)
    rw [argument_of_ne_quote hfirst.plain.ne_quote]
    exact hfirst.gives

theorem gives_cdr {e : Expr} (h : Gives g (ev e) (value g e)) (hitems : GivesItems g ev e) :
    Gives g (compute ev [e] .cdr) (values g [e] >>= onValues .cdr) := by
  have hvalue : (values g [e] >>= onValues .cdr) = value g e >>= fun v =>
      .ok (if v.itemsOrNone.isEmpty then Expr.nil else .list v.itemsOrNone.tail) := by
    simp only [values, bind_assoc, pure_bind, Primitive.onValues_cdr]
  rw [Primitive.compute_cdr, hvalue]
  refine h.bind fun v hv => ?_
  have hi := hitems.itemsOrNone hv
  cases hcases : v.itemsOrNone with
  | nil => exact Gives.pure _
  | cons first rest =>
    have hrest : ∀ w ∈ rest, GivesItself g ev w := fun w hw => hi w (by simp [hcases, hw])
    have hvs : values g rest = .ok rest := values_of_forall fun w hw => (hrest w hw).value
    have hargs : Gives g (arguments ev rest) (values g rest) := by
      refine gives_arguments (fun w hw => (hrest w hw).plain) fun w hw => ?_
      rw [(hrest w hw).value]
      exact (hrest w hw).gives
    rw [hvs] at hargs
    exact hargs.bind (s := fun ws => .ok (Expr.list ws)) fun ws _ => Gives.pure (Expr.list ws)

/-- A primitive called on plain arguments gives what it makes of their values. -/
theorem gives_perform (p : Primitive) {es : List Expr} (hp : ∀ e ∈ es, Plain e)
    (h : ∀ e ∈ es, Gives g (ev e) (value g e)) (hitems : ∀ e ∈ es, GivesItems g ev e) :
    Gives g (p.perform ev es) (perform p es (values g es)) := by
  unfold Primitive.perform perform
  cases harity : p.arityFault? es.length with
  | some f => exact Gives.fail f
  | none =>
    have hone : p.arity = .exactly 1 → ∃ e, es = [e] := fun hp =>
      List.length_eq_one_iff.1 (Primitive.length_of_exactly harity hp)
    cases p with
    | car =>
      obtain ⟨e, rfl⟩ := hone rfl
      exact gives_car (h e (by simp)) (hitems e (by simp))
    | cdr =>
      obtain ⟨e, rfl⟩ := hone rfl
      exact gives_cdr (h e (by simp)) (hitems e (by simp))
    | atom =>
      obtain ⟨e, rfl⟩ := hone rfl
      dsimp only
      rw [Primitive.compute_atom]
      exact Gives.ofExcept _
    | _ =>
      dsimp only
      rw [Primitive.compute_eq (by decide) harity]
      exact (gives_arguments hp h).bind fun _ _ => Gives.ofExcept _

theorem choice_malformed {c : Expr} (hc : ∀ test result, c ≠ .list [test, result])
    (cs : List Expr) : choice g (c :: cs) = .error .malformedClause := by
  unfold choice
  split
  · next heq => cases heq
  · next heq => exact absurd (List.cons.inj heq).1 (hc _ _)
  · rfl

/-- Clauses are looked at in order, and one result is evaluated. -/
theorem gives_clauses : ∀ {cs : List Expr},
    (∀ test result, .list [test, result] ∈ cs →
      Gives g (ev test) (value g test) ∧ Gives g (ev result) (value g result)) →
      Gives g (clauses ev cs) (choice g cs)
  | [], _ => Gives.pure _
  | c :: cs, h => by
    have hcs : Gives g (clauses ev cs) (choice g cs) :=
      gives_clauses fun test result hm => h test result (by simp [hm])
    by_cases hc : ∃ test result, c = .list [test, result]
    · obtain ⟨test, result, rfl⟩ := hc
      obtain ⟨htest, hresult⟩ := h test result (by simp)
      refine htest.bind fun v _ => ?_
      cases v.isTrue with
      | true => exact hresult
      | false => exact hcs
    · have hne : ∀ test result, c ≠ .list [test, result] :=
        fun test result he => hc ⟨test, result, he⟩
      rw [clauses_malformed hne, choice_malformed hne]
      exact Gives.fail _

/-- A list of data is evaluated item by item. If the list of the values is then
evaluated once more, that changes nothing. -/
theorem gives_data {head : Expr} {tail : List Expr} (hp : Plain head)
    (h : ∀ e ∈ head :: tail, Gives g (ev e) (value g e))
    (hhead : ∀ v, value g head = .ok v → ∀ p, v ≠ .func p)
    (hagain : ∀ vs, values g (head :: tail) = .ok vs →
      needsAnotherPass (Expr.list (head :: tail)).render (Expr.list vs).render = true →
        Gives g (ev (.list vs)) (.ok (.list vs))) :
    Gives g (evaluateList ev (head :: tail)) (do return .list (← values g (head :: tail))) := by
  have htwice : (do return .list (← values g (head :: tail)) : Except Fault Expr) =
      value g head >>= fun _ => do return .list (← values g (head :: tail)) := by
    cases hv : value g head with
    | ok v => rfl
    | error f =>
      rw [values, hv]
      rfl
  rw [evaluateList, hp.isFunction, htwice]
  refine (h head (by simp)).bind fun v hv => ?_
  have hrest : Gives g (do
      let result := Expr.list (← evaluateEach ev (head :: tail))
      if needsAnotherPass (Expr.list (head :: tail)).render result.render then ev result
      else return result) (do return .list (← values g (head :: tail))) := by
    refine (gives_evaluateEach h).bind fun vs hvs => ?_
    dsimp only
    split
    · next hpass => exact hagain vs hvs hpass
    · exact Gives.pure _
  cases v with
  | func p => exact absurd rfl (hhead _ hv p)
  | _ => exact hrest

theorem gives_call {head : Expr} {tail : List Expr} {q : Procedure} {r : Except Fault Expr}
    (hp : Plain head) (h : Gives g (ev head) (.ok (.func q))) (hcall : Gives g (q.call ev tail) r) :
    Gives g (evaluateList ev (head :: tail)) r := by
  have hr : r = (.ok (.func q) : Except Fault Expr) >>= fun _ => r := rfl
  rw [evaluateList, hp.isFunction, hr]
  exact h.bind fun v hv => Except.ok.inj hv ▸ hcall

theorem gives_call_primitive {p : Primitive} {es : List Expr} {r : Except Fault Expr}
    (h : Gives g (p.perform ev es) r) : Gives g ((Procedure.primitive p).call ev es) r :=
  (Gives.announce _).bind fun _ _ => h

theorem gives_call_cond {cs : List Expr} (h : Gives g (clauses ev cs) (choice g cs)) :
    Gives g ((Procedure.form .cond).call ev cs)
      (if cs.isEmpty then throw (.formArity .cond) else choice g cs) := by
  have hchoose : Gives g (Form.choose ev cs)
      (if cs.isEmpty then throw (.formArity .cond) else choice g cs) := by
    cases cs with
    | nil => exact Gives.fail _
    | cons c cs => exact h
  exact (Gives.announce _).bind fun _ _ => hchoose

end Step

/-! ### Adequacy -/

section Adequacy

variable {g : Table}

/-- At every sufficient depth the expression is evaluated to its value. -/
def Adequate (g : Table) (e : Expr) : Prop :=
  ∀ᶠ depth in Filter.atTop, Gives g (evaluate depth e) (value g e)

theorem adequate_of_dispatch {e : Expr} (he : Plain e)
    (h : ∀ᶠ depth in Filter.atTop, Gives g (dispatch (fun e => evaluate depth e) e) (value g e)) :
    Adequate g e := by
  obtain ⟨least, hleast⟩ := Filter.eventually_atTop.1 h
  refine Filter.eventually_atTop.2 ⟨least + 1, fun depth hd => ?_⟩
  obtain ⟨depth, rfl⟩ : ∃ n, depth = n + 1 := ⟨depth - 1, by omega⟩
  exact gives_evaluate he (hleast depth (by omega))

theorem eventually_forall {P : Expr → Nat → Prop} {es : List Expr}
    (h : ∀ e ∈ es, ∀ᶠ depth in Filter.atTop, P e depth) :
    ∀ᶠ depth in Filter.atTop, ∀ e ∈ es, P e depth :=
  (Filter.eventually_all_finite (List.finite_toSet es)).2 h

theorem adequate_atom {e : Expr} (he : Plain e)
    (h : ∀ ev, Gives g (dispatch ev e) (value g e)) : Adequate g e :=
  adequate_of_dispatch he (Filter.Eventually.of_forall fun _ => h _)

theorem adequate_sym {n : Text} {v : Expr} (he : Plain (.sym n)) (hv : g.get? n = some v)
    (hlist : v.isList = false) : Adequate g (.sym n) := by
  refine adequate_atom he fun ev => ?_
  have hvalue : value g (.sym n) = .ok (some v) >>= fun _ => .ok v := value_sym hv
  rw [hvalue, ← hv]
  refine (Gives.global? n).bind fun b hb => ?_
  rw [hv] at hb
  obtain rfl := Except.ok.inj hb
  cases v with
  | list items => cases hlist
  | _ => exact Gives.pure _

theorem adequate_constant (hg : Standard g) {v : Expr} (h : Constant v) : Adequate g v := by
  cases v with
  | num t => exact adequate_atom h.plain fun _ => Gives.pure _
  | str t => exact adequate_atom h.plain fun _ => Gives.pure _
  | sym n => exact adequate_sym h.plain (hg.constant _ h) rfl
  | _ => exact h.elim

theorem adequate_datum (hg : Standard g) {v : Expr} (h : Datum v) : Adequate g v := by
  induction h with
  | constant h => exact adequate_constant hg h
  | @list vs hvs ih =>
    have hfirst : ∀ v ∈ vs, FirstOrder g v := fun v hv => (hvs v hv).firstOrder hg
    refine adequate_of_dispatch (Datum.list hvs).plain ?_
    filter_upwards [eventually_forall ih] with depth hev
    cases vs with
    | nil => exact Gives.pure _
    | cons head tail =>
      have hvalues : values g (head :: tail) = .ok (head :: tail) :=
        values_of_forall fun v hv => value_of_datum hg (hvs v hv)
      rw [value_data hg hfirst]
      refine gives_data (hvs head (by simp)).plain hev (fun v hv p => ?_) fun ws hws hpass => ?_
      · rw [value_of_datum hg (hvs head (by simp))] at hv
        exact Except.ok.inj hv ▸ (hvs head (by simp)).ne_func p
      · rw [hvalues] at hws
        obtain rfl := Except.ok.inj hws
        simp [needsAnotherPass] at hpass

/-- The value of an expression is evaluated to itself, and so are its items. -/
theorem eventually_again (hg : Standard g) {e : Expr} (he : Plain e) (h : FirstOrder g e) :
    ∀ᶠ depth in Filter.atTop, ∀ v, value g e = .ok v → Gives g (evaluate depth v) (.ok v) := by
  cases hv : value g e with
  | error f => exact Filter.Eventually.of_forall fun _ v hw => nomatch hw
  | ok v =>
    have hdatum := datum_of_value hg he h v hv
    filter_upwards [adequate_datum hg hdatum] with depth hd w hw
    obtain rfl := Except.ok.inj hw
    rwa [value_of_datum hg hdatum] at hd

theorem eventually_givesItems (hg : Standard g) {e : Expr} (he : Plain e) (h : FirstOrder g e) :
    ∀ᶠ depth in Filter.atTop, GivesItems g (fun e => evaluate depth e) e := by
  by_cases hlist : ∃ vs, value g e = .ok (.list vs)
  · obtain ⟨vs, hvs⟩ := hlist
    have hitems := (datum_of_value hg he h _ hvs).items
    filter_upwards [eventually_forall fun v hv => adequate_datum hg (hitems v hv)] with depth hd
    intro ws hws v hv
    rw [hvs] at hws
    obtain rfl := Expr.list.inj (Except.ok.inj hws)
    have hself := value_of_datum hg (hitems v hv)
    exact ⟨(hitems v hv).plain, hself, hself ▸ hd v hv⟩
  · exact Filter.Eventually.of_forall fun _ vs hvs => absurd ⟨vs, hvs⟩ hlist

/-- Every plain expression of the language is evaluated to its value. -/
theorem adequate (hg : Standard g) {e : Expr} (h : FirstOrder g e) : Plain e → Adequate g e := by
  induction h with
  | num => exact fun he => adequate_atom he fun _ => Gives.pure _
  | str => exact fun he => adequate_atom he fun _ => Gives.pure _
  | @sym n v hv hc =>
    intro he
    refine adequate_sym he hv ?_
    cases v with
    | list items => exact hc.elim
    | _ => rfl
  | @data es hes ih =>
    intro he
    refine adequate_of_dispatch he ?_
    have hitems := eventually_forall fun e hm => ih e hm (he.items e hm)
    filter_upwards [hitems, eventually_again hg he (.data hes)] with depth hev hagain
    rw [value_data hg hes] at hagain ⊢
    cases es with
    | nil => exact Gives.pure _
    | cons head tail =>
      have hhead := he.items head (by simp)
      refine gives_data hhead hev (fun v hv p => ?_) fun vs hvs _ => ?_
      · exact (datum_of_value hg hhead (hes head (by simp)) v hv).ne_func p
      · exact hagain (.list vs) (by rw [hvs]; rfl)
  | @call p es hes ih =>
    intro he
    refine adequate_of_dispatch he ?_
    have hplain : ∀ e ∈ es, Plain e := fun e hm => he.items e (by simp [hm])
    have hname : Plain (.sym p.name) := he.items _ (by simp)
    have hargs := eventually_forall fun e hm => ih e hm (hplain e hm)
    have hagain := eventually_forall fun e hm => eventually_givesItems hg (hplain e hm) (hes e hm)
    filter_upwards [adequate_sym hname (hg.primitive p) rfl, hargs, hagain] with depth hop hev hi
    rw [value_sym (hg.primitive p)] at hop
    rw [value_call]
    exact gives_call hname hop (gives_call_primitive (gives_perform p hplain hev hi))
  | @cond cs htests hresults ihtest ihresult =>
    intro he
    refine adequate_of_dispatch he ?_
    have hname : Plain (.sym Form.cond.name) := he.items _ (by simp)
    have hclauses : ∀ᶠ depth in Filter.atTop, ∀ c ∈ cs, ∀ test result, c = .list [test, result] →
        Gives g (evaluate depth test) (value g test) ∧
          Gives g (evaluate depth result) (value g result) := by
      refine eventually_forall fun c hm => ?_
      by_cases hc : ∃ test result, c = .list [test, result]
      · obtain ⟨test, result, rfl⟩ := hc
        have hparts : Plain (.list [test, result]) := he.items _ (by simp [hm])
        have htest := ihtest test result hm (hparts.items test (by simp))
        have hresult := ihresult test result hm (hparts.items result (by simp))
        filter_upwards [htest, hresult] with depth ht hr t r heq
        cases heq
        exact ⟨ht, hr⟩
      · exact Filter.Eventually.of_forall fun _ test result heq => absurd ⟨test, result, heq⟩ hc
    filter_upwards [adequate_sym hname hg.cond rfl, hclauses] with depth hop hcs
    rw [value_sym hg.cond] at hop
    rw [value_cond]
    exact gives_call hname hop (gives_call_cond (gives_clauses fun t r hm => hcs _ hm t r rfl))

end Adequacy

/-- **The evaluator does what the direct meaning says** on the first-order
language: from a context in which the operators and constants are bound to
themselves and nothing is kept yet, there is a depth from which on it ends with
the value or the fault. -/
theorem evaluate_eq_value {c : Context} (hg : Standard c.globals) (hcache : c.cache = ∅)
    {e : Expr} (he : Plain e) (h : FirstOrder c.globals e) :
    ∃ least, ∀ depth, least ≤ depth →
      (evaluate depth e c).outcome = (value c.globals e).mapError Stop.fault := by
  have hsound : Sound c.globals c := ⟨rfl, fun t v hv => by rw [hcache] at hv; cases hv⟩
  obtain ⟨least, hleast⟩ := Filter.eventually_atTop.1 (adequate hg h he)
  exact ⟨least, fun depth hd => (hleast depth hd c hsound).1⟩

theorem standard_startup : Standard Context.startup.globals := by
  refine ⟨fun p => ?_, by decide +kernel, by decide +kernel⟩
  cases p <;> decide +kernel

/-- A choice whose result is a list of data that mentions `lambda` in a string,
and a clause behind it that is never reached. -/
theorem evaluate_eq_value_startup :
    let e : Expr := .list [.sym "cond", .list [.list [.sym ">", .num "1", .num "2"], .sym "#f"],
      .list [.sym "#t", .list [.list [.sym "/", .num "7", .num "2"], .str "\"(lambda\""]],
      .str "\"no clause\""]
    (Standard Context.startup.globals ∧ Context.startup.cache = ∅ ∧ Plain e ∧
      FirstOrder Context.startup.globals e) ∧
    ∃ least, ∀ depth, least ≤ depth → (evaluate depth e Context.startup).outcome =
      .ok (.list [.num "3.5", .str "\"(lambda\""]) := by
  intro e
  have hread : Expr.read "(cond ((> 1 2) #f) (#t ((/ 7 2) \"(lambda\")) \"no clause\")".toList =
      .ok e := by decide +kernel
  have he : Plain e := ⟨Expr.readable_of_read hread, by decide +kernel, by decide +kernel⟩
  have htest : FirstOrder Context.startup.globals (.list [.sym ">", .num "1", .num "2"]) :=
    .call (p := .greater) (by simp [FirstOrder.num])
  have hquotient : FirstOrder Context.startup.globals (.list [.sym "/", .num "7", .num "2"]) :=
    .call (p := .div) (by simp [FirstOrder.num])
  have hdata : FirstOrder Context.startup.globals
      (.list [.list [.sym "/", .num "7", .num "2"], .str "\"(lambda\""]) :=
    .data (List.forall_mem_cons.2 ⟨hquotient, List.forall_mem_cons.2 ⟨.str, by simp⟩⟩)
  have hconstant : ∀ v ∈ [yes, no, Expr.nil], FirstOrder Context.startup.globals v :=
    fun v hv => (Datum.constant (by revert v; simp [Constant, yes, no, Expr.nil])).firstOrder
      standard_startup
  have h : FirstOrder Context.startup.globals e := by
    refine .cond (fun test result hm => ?_) fun test result hm => ?_
    · simp at hm
      rcases hm with ⟨rfl, -⟩ | ⟨rfl, -⟩
      · exact htest
      · exact hconstant yes (by simp)
    · simp at hm
      rcases hm with ⟨-, rfl⟩ | ⟨-, rfl⟩
      · exact hconstant no (by simp)
      · exact hdata
  refine ⟨⟨standard_startup, rfl, he, h⟩, ?_⟩
  have hvalue : value Context.startup.globals e =
      .ok (.list [.num "3.5", .str "\"(lambda\""]) := by decide +kernel
  have hall := evaluate_eq_value standard_startup rfl he h
  rwa [hvalue] at hall

end Direct

end SpliceLisp
