/-
# Bindings read back

A name that a turn has bound reads back in later turns (`reads_back`). The call that
binds it evaluates the expression, binds the name to the value and gives back the
expression, not the value (`evaluate_binding`). Whatever later turns do, and however
they end, a name that none of them binds stays bound to the same
(`Context.get?_afterTurns`), and no value that was kept outlives its turn.

A name that is bound to a list has the value of that list, and not the list, so this
has to be a value that evaluates to itself: a datum (`evaluate_datum`) or a function
(`evaluate_function`). Any other value is given back as it is (`Settled`,
`evaluate_bound`).

Key definitions: `Expr.binding`, `Context.bindingsOfTurns`, `Settled`.
Key theorems: `Context.globals_afterTurns`, `evaluate_binding`, `evaluate_bound`,
`reads_back`.
-/
import Mathlib
import SpliceLisp.Proofs.Data
import SpliceLisp.Proofs.Isolation

namespace SpliceLisp

open Eval Direct

namespace Expr

/-- The call that binds the name to the value of the expression. -/
def binding (name : Text) (e : Expr) : Expr := list [sym Form.binding.name, sym name, e]

end Expr

/-! ### What later turns leave alone -/

namespace Table

theorem get?_insertAll_of_forall_ne {name : Text} : ∀ {pairs : List (Text × Expr)} (t : Table),
    (∀ p ∈ pairs, p.1 ≠ name) → (t.insertAll pairs).get? name = t.get? name
  | [], _, _ => rfl
  | p :: pairs, t, h => by
    obtain ⟨hp, hrest⟩ := List.forall_mem_cons.1 h
    exact (get?_insertAll_of_forall_ne (t.insert p.1 p.2) hrest).trans
      (get?_insert_of_ne t p.2 (Ne.symm hp))

end Table

namespace Context

/-- What a row of turns binds, in order. -/
def bindingsOfTurns (depth : Nat) (c : Context) : List Text → List (Text × Expr)
  | [] => []
  | source :: sources => (turn depth source c).bindings ++
    (turn depth source c).context.bindingsOfTurns depth sources

/-- The globals after a row of turns are those before with all bindings made that the
turns come to, however these end. -/
theorem globals_afterTurns (depth : Nat) : ∀ (sources : List Text) (c : Context),
    (c.afterTurns depth sources).globals =
      c.globals.insertAll (c.bindingsOfTurns depth sources)
  | [], _ => rfl
  | source :: sources, c => by
    have hrest := globals_afterTurns depth sources (turn depth source c).context
    rw [globals_turn] at hrest
    rw [bindingsOfTurns, Table.insertAll, List.foldl_append]
    exact hrest

/-- A name that no turn binds stays bound to what it is bound to. -/
theorem get?_afterTurns {depth : Nat} {sources : List Text} {c : Context} {name : Text}
    (h : ∀ p ∈ c.bindingsOfTurns depth sources, p.1 ≠ name) :
    (c.afterTurns depth sources).globals.get? name = c.globals.get? name := by
  rw [globals_afterTurns, Table.get?_insertAll_of_forall_ne _ h]

theorem get?_cache {c : Context} (hcache : c.cache = ∅) (text : Text) :
    c.cache.get? text = none := by
  rw [hcache]
  rfl

end Context

/-! ### A turn on one expression -/

theorem evaluateText_of_one {source : Text} {e : Expr} (h : Expr.readAll source = ⟨[e], none⟩)
    (depth : Nat) : evaluateText depth source = evaluate depth e := by
  have hread : evaluateText depth source = evaluate depth e >>= pure := by
    simp only [evaluateText, h]
    rfl
  rw [hread, bind_pure]

theorem turn_of_one {source : Text} {e : Expr} (h : Expr.readAll source = ⟨[e], none⟩)
    (depth : Nat) (c : Context) :
    turn depth source c = { evaluate depth e c with context := (evaluate depth e c).context.endTurn } := by
  simp only [turn, evaluateText_of_one h]

section Round

variable {c d : Context} {e v : Expr} {es : List Event} {depth : Nat}

/-- The last that is on record of an evaluation that ends with a value is that it does. -/
theorem exists_events_of_evaluate (h : evaluate depth e c = ⟨.ok v, d, es⟩) :
    ∃ inside, es = inside ++ [.returned e v d] := by
  cases depth with
  | zero => cases h
  | succ depth =>
    cases hget : c.cache.get? e.render with
    | some w =>
      rw [evaluate_of_kept hget] at h
      cases h
      exact ⟨[.entered e c], rfl⟩
    | none =>
      cases hrun : dispatch (fun e => evaluate depth e) e c with
      | mk outcome d' es' =>
      cases outcome with
      | error s => rw [evaluate_of_error hget hrun] at h; cases h
      | ok w =>
        rw [evaluate_of_ok hget hrun] at h
        cases h
        exact ⟨.entered e c :: es', rfl⟩

end Round

/-! ### Names, calls and functions -/

section Name

variable {c : Context} {n : Text} (hnone : c.cache.get? n = none)
include hnone

theorem evaluate_global {v : Expr} (hv : c.globals.get? n = some v) (hlist : v.isList = false)
    (depth : Nat) : ∃ es, evaluate (depth + 1) (.sym n) c = ⟨.ok v, c.remember n v, es⟩ := by
  have hstep : dispatch (fun e => evaluate depth e) (.sym n) c = ⟨.ok v, c, []⟩ := by
    have hglobal : global? n c = ⟨.ok (some v), c, []⟩ := by rw [global?, hv]
    rw [dispatch, bind_ok hglobal]
    cases v with
    | list items => cases hlist
    | _ => rfl
  exact ⟨_, evaluate_of_ok hnone hstep⟩

theorem evaluate_global_list {items : List Expr} (hv : c.globals.get? n = some (.list items))
    (depth : Nat) :
    (evaluate (depth + 1) (.sym n) c).outcome = (evaluate depth (.list items) c).outcome ∧
      (evaluate (depth + 1) (.sym n) c).context.globals =
        (evaluate depth (.list items) c).context.globals := by
  have hstep : dispatch (fun e => evaluate depth e) (.sym n) c = evaluate depth (.list items) c := by
    have hglobal : global? n c = ⟨.ok (some (.list items)), c, []⟩ := by rw [global?, hv]
    rw [dispatch, bind_ok hglobal]
    rfl
  cases hrun : evaluate depth (.list items) c with
  | mk outcome d es =>
  rw [hrun] at hstep
  cases outcome with
  | ok w => rw [evaluate_of_ok hnone hstep]; exact ⟨rfl, rfl⟩
  | error s => rw [evaluate_of_error hnone hstep]; exact ⟨rfl, rfl⟩

theorem dispatch_call {p : Procedure} (hp : c.globals.get? n = some (.func p)) (depth : Nat)
    (tail : List Expr) : ∃ es,
    dispatch (fun e => evaluate (depth + 1) e) (.list (.sym n :: tail)) c =
      let run := p.call (fun e => evaluate (depth + 1) e) tail (c.remember n (.func p))
      ⟨run.outcome, run.context, es ++ run.events⟩ := by
  have hhead : (Expr.sym n).isFunction = false := rfl
  obtain ⟨es, hname⟩ := evaluate_global hnone hp rfl depth
  refine ⟨es, ?_⟩
  simp only [dispatch, evaluateList, hhead]
  exact bind_ok hname

end Name

section Form

variable {ev : Expr → Eval Expr} {c d : Context} {es : List Event} {n : Text} {e : Expr}

/-- `lambda` gives back the function, unless its parameters are one. -/
theorem call_lambda {params body : Expr} (hparams : params.isFunction = false) (c : Context) :
    (Procedure.form .lambda).call ev [params, body] c =
      ⟨.ok (.list [.lambda, params, body]), c, [.invoked (.form .lambda) .value]⟩ := by
  have habstract : Form.abstract ev [params, body] = pure (.list [.lambda, params, body]) := by
    rw [Form.abstract, hparams]
    rfl
  have hinvoked : note (fun _ => .invoked (.form .lambda) .value) c =
      ⟨.ok (), c, [.invoked (.form .lambda) .value]⟩ := rfl
  simp only [Procedure.call, Procedure.perform, habstract]
  exact bind_ok hinvoked

theorem call_binding_eq (c : Context) : (Procedure.form .binding).call ev [.sym n, e] c =
    let run := (ev e >>= fun v => bindGlobal n v >>= fun _ => pure e) c
    { run with events := .invoked (.form .binding) .value :: run.events } := by
  have hinvoked : note (fun _ => .invoked (.form .binding) .value) c =
      ⟨.ok (), c, [.invoked (.form .binding) .value]⟩ := rfl
  simp only [Procedure.call, Procedure.perform, Form.bind]
  exact bind_ok hinvoked

theorem call_binding {v : Expr} (h : ev e c = ⟨.ok v, d, es⟩) :
    (Procedure.form .binding).call ev [.sym n, e] c =
      ⟨.ok e, d.bind n v, .invoked (.form .binding) .value :: (es ++ [.bound n v])⟩ := by
  rw [call_binding_eq, bind_ok h]
  rfl

theorem call_binding_error {s : Stop} (h : ev e c = ⟨.error s, d, es⟩) :
    ((Procedure.form .binding).call ev [.sym n, e] c).outcome = .error s := by
  rw [call_binding_eq, bind_error h]

end Form

section Forms

variable {c : Context} (hcache : c.cache = ∅)
include hcache

/-- A function is its own value, unless its parameters are a function. -/
theorem evaluate_function (hlambda : c.globals.get? Expr.lambdaName = some (.func (.form .lambda)))
    {params body : Expr} (hparams : params.isFunction = false) (depth : Nat) :
    (evaluate (depth + 2) (.list [.lambda, params, body]) c).outcome =
        .ok (.list [.lambda, params, body]) ∧
      (evaluate (depth + 2) (.list [.lambda, params, body]) c).context.globals = c.globals := by
  have hnone := Context.get?_cache hcache
  obtain ⟨es, hcall⟩ := dispatch_call (hnone _) hlambda depth [params, body]
  rw [call_lambda hparams] at hcall
  have hrun : evaluate (depth + 2) (.list [.lambda, params, body]) c = _ :=
    evaluate_of_ok (hnone _) hcall
  rw [hrun]
  exact ⟨rfl, rfl⟩

/-- Binding a name, if it ends with a value, evaluates the expression, binds the name to
what that comes to, and gives back the expression. -/
theorem evaluate_binding (hlet : c.globals.get? Form.binding.name = some (.func (.form .binding)))
    {n : Text} {e w : Expr} {depth : Nat}
    (h : (evaluate depth (.binding n e) c).outcome = .ok w) :
    ∃ v es d f, evaluate depth (.binding n e) c =
        ⟨.ok e, f, es ++ [.returned e v d, .bound n v, .returned (.binding n e) e f]⟩ ∧
      f.globals = d.globals.insert n v := by
  have hnone := Context.get?_cache hcache
  match depth with
  | 0 => cases h
  | 1 =>
    have htooDeep : (dispatch (fun e => evaluate 0 e) (.binding n e) c).outcome =
        .error .tooDeep := rfl
    rw [outcome_evaluate (hnone _), htooDeep] at h
    cases h
  | depth + 2 =>
    obtain ⟨es, hcall⟩ : ∃ es, dispatch (fun e => evaluate (depth + 1) e) (.binding n e) c = _ :=
      dispatch_call (hnone _) hlet depth [.sym n, e]
    cases hrun : evaluate (depth + 1) e (c.remember Form.binding.name (.func (.form .binding))) with
    | mk outcome d fs =>
    cases outcome with
    | error s =>
      have hstop := call_binding_error (n := n) hrun
      rw [outcome_evaluate (hnone _), hcall] at h
      cases h.symm.trans hstop
    | ok v =>
      obtain ⟨inside, rfl⟩ := exists_events_of_evaluate hrun
      rw [call_binding hrun] at hcall
      have hwhole : evaluate (depth + 2) (.binding n e) c = _ := evaluate_of_ok (hnone _) hcall
      refine ⟨v, .entered (.binding n e) c :: (es ++ .invoked (.form .binding) .value :: inside), d,
        (d.bind n v).remember (Expr.binding n e).render e, hwhole.trans ?_, rfl⟩
      simp only [List.append_assoc, List.cons_append, List.nil_append]

end Forms

/-! ### Reading back -/

/-- The values that a name has when it is bound to them: what is no list, data, and
functions, unless their parameters are a function. -/
inductive Settled : Expr → Prop
  | bare {v : Expr} : v.isList = false → Settled v
  | datum {v : Expr} : Datum v → Settled v
  | function {params body : Expr} : params.isFunction = false →
      Settled (.list [.lambda, params, body])

section Reading

variable {c : Context} {n : Text} {v : Expr} (hw : c.WellFormed) (hcache : c.cache = ∅)
  (hc : c.Defines [.form .lambda]) (hv : c.globals.get? n = some v)
include hw hcache hc hv

/-- Between turns, with room to spare, a name evaluates to the settled value that it
is bound to, and the globals stay as they are. -/
theorem evaluate_bound (hsettled : Settled v) {k : Nat} (hk : v.nesting + 1 < k) :
    (evaluate k (.sym n) c).outcome = .ok v ∧
      (evaluate k (.sym n) c).context.globals = c.globals := by
  have hnone := Context.get?_cache hcache
  have hps : ∀ p ∈ [Procedure.form .lambda], p ∈ Procedure.builtins := by decide
  obtain ⟨k, rfl⟩ : ∃ j, k = j + 1 := ⟨k - 1, by omega⟩
  by_cases hlist : v.isList = false
  · obtain ⟨es, hrun⟩ := evaluate_global (hnone n) hv hlist k
    rw [hrun]
    exact ⟨rfl, rfl⟩
  obtain ⟨items, rfl⟩ : ∃ items, v = .list items := by
    cases v with
    | list items => exact ⟨items, rfl⟩
    | _ => exact absurd rfl hlist
  -- The list is evaluated in its turn, and comes to itself.
  obtain ⟨houtcome, hglobals⟩ := evaluate_global_list (hnone n) hv k
  rw [houtcome, hglobals]
  cases hsettled with
  | bare h => exact absurd h hlist
  | datum hdatum =>
    have hroom : (Expr.list items).nesting < k := by omega
    obtain ⟨hvalue, halike⟩ :=
      evaluate_datum hps hdatum hroom (Facts.holdIn_ofData hw hcache hc)
    exact ⟨hvalue, halike.globals.symm⟩
  | @function params body hparams =>
    have hparts : params.nesting < (Expr.list [.lambda, params, body]).nesting :=
      Expr.nesting_lt_of_mem (by simp)
    obtain ⟨j, rfl⟩ : ∃ j, k = j + 2 := ⟨k - 2, by omega⟩
    exact evaluate_function hcache (hc.procedure _ List.mem_cons_self) hparams j

end Reading

/-- **A binding reads back across turns.** Let a turn of a session, in which `let` is
the form that binds, bind a name in a call of that and end with a value. On record is
then the value that the expression comes to, and that the name is bound to it. Let this
value be settled: no list, a datum, or a function with parameters that are no function.
After any later turns of which none binds the name, with the constants and `lambda`
bound as at startup, a turn that reads the name has that value and leaves the globals
as they are, if it does not run out of depth. It does not if evaluations may be nested
deeper than the lists of the value are. -/
theorem reads_back (depth : Nat) (earlier : List Text) {source n : Text} {e : Expr}
    (hsource : Expr.readAll source = ⟨[.binding n e], none⟩)
    (hlet : (Context.startup.afterTurns depth earlier).globals.get? Form.binding.name =
      some (.func (.form .binding)))
    (hok : ∃ w, (turn depth source (Context.startup.afterTurns depth earlier)).outcome = .ok w) :
    let run := turn depth source (Context.startup.afterTurns depth earlier)
    ∃ v es c d, run.events = es ++ [.returned e v c, .bound n v, .returned (.binding n e) e d] ∧
      (Settled v → ∀ later : List Text, (∀ p ∈ run.context.bindingsOfTurns depth later, p.1 ≠ n) →
          let after := run.context.afterTurns depth later
          after.Defines [.form .lambda] →
            ∀ text, Expr.readAll text = ⟨[.sym n], none⟩ → ∀ k,
              let answer := turn k text after
              (v.nesting + 1 < k → answer.outcome ≠ .error .tooDeep) ∧
                (answer.outcome ≠ .error .tooDeep →
                  answer.outcome = .ok v ∧ answer.context.globals = after.globals)) := by
  intro run
  obtain ⟨w, hw⟩ := hok
  have hbefore : (Context.startup.afterTurns depth earlier).cache = ∅ :=
    Context.cache_afterTurns depth Context.cache_startup earlier
  have hrun : run = _ := turn_of_one hsource depth _
  have hvalue : (evaluate depth (.binding n e) (Context.startup.afterTurns depth earlier)).outcome =
      .ok w := by
    rw [turn_of_one hsource] at hw
    exact hw
  obtain ⟨v, es, c, d, heval, hglobals⟩ := evaluate_binding hbefore hlet hvalue
  refine ⟨v, es, c, d, by rw [hrun, heval], ?_⟩
  intro hkind later hlater after hdefines text htext k
  have hbound : after.globals.get? n = some v := by
    have hnow : run.context.globals = d.globals := by rw [hrun, heval]; rfl
    rw [Context.get?_afterTurns hlater, hnow, hglobals, Table.get?_insert_self]
  have hall : after = Context.startup.afterTurns depth (earlier ++ source :: later) :=
    (Context.afterTurns_append depth _ earlier (source :: later)).symm
  have hwell : after.WellFormed := hall ▸ Context.wellFormed_afterTurns depth _
  have hcache : after.cache = ∅ := hall ▸ Context.cache_afterTurns depth Context.cache_startup _
  have hread : ∀ {j}, v.nesting + 1 < j → _ :=
    evaluate_bound hwell hcache hdefines hbound hkind
  rw [turn_of_one htext]
  refine ⟨fun hk => ?_, fun hfin => ?_⟩
  · rw [show _ = _ from (hread hk).1]
    nofun
  · have hlarge : v.nesting + 1 < max k (v.nesting + 2) := by omega
    have hsame := evaluate_eq_of_le (le_max_left k (v.nesting + 2)) hfin
    rw [← hsame]
    exact hread hlarge

/-- A list with a string in it that has the letters of `lambda`. Of the later turns one
binds the other name before it fails, one is not complete, and one is nested too deep. -/
theorem reads_back_list :
    let earlier : List Text := ["(let less (lambda (x) (- x 2)))"]
    let source : Text := "(let a (cons (less 0.5) (cons \"lambda\" #t)))"
    let e : Expr := .list [.sym "cons", .list [.sym "less", .num "0.5"],
      .list [.sym "cons", .str "\"lambda\"", .sym "#t"]]
    let later : List Text := ["(let b a) (undefined)", "(let c", "(let f (lambda (a) (f a))) (f b)"]
    let before := Context.startup.afterTurns depthLimit earlier
    let run := turn depthLimit source before
    let after := run.context.afterTurns depthLimit later
    let answer := turn depthLimit " a " after
    let v : Expr := .list [.num "-1.5", .list [.str "\"lambda\"", .sym "#t"]]
    (Expr.readAll source = ⟨[.binding "a" e], none⟩ ∧
      before.globals.get? Form.binding.name = some (.func (.form .binding)) ∧
      run.outcome = .ok e ∧ Datum v ∧
      (∀ p ∈ run.context.bindingsOfTurns depthLimit later, p.1 ≠ "a") ∧
      after.Defines [.form .lambda] ∧ Expr.readAll " a " = ⟨[.sym "a"], none⟩) ∧
    answer.outcome = .ok v ∧ answer.context.globals = after.globals := by
  intro earlier source e later before run after answer v
  have hread : ∀ {text : Text} {es : List Expr}, (Expr.readAll text).exprs = es →
      (Expr.readAll text).fault = none → Expr.readAll text = ⟨es, none⟩ := by
    rintro text _ rfl hfault
    exact congrArg (Reading.mk _) hfault
  have hsource : Expr.readAll source = ⟨[.binding "a" e], none⟩ :=
    hread (by decide +kernel) (by decide +kernel)
  have htext : Expr.readAll " a " = ⟨[.sym "a"], none⟩ :=
    hread (by decide +kernel) (by decide +kernel)
  have hlet : before.globals.get? Form.binding.name = some (.func (.form .binding)) := by
    decide +kernel
  have hok : run.outcome = .ok e := by decide +kernel
  have hnumber : Datum (.num "-1.5") :=
    .constant (show Lexeme.Kind.admits .number "-1.5".toList = true by decide +kernel)
  have hstring : Datum (.str "\"lambda\"") :=
    .constant (show Lexeme.Kind.admits .string "\"lambda\"".toList = true by decide +kernel)
  have hconstant : Datum (.sym "#t") := .constant (by decide : Expr.yes ∈ [Expr.yes, .no, .nil])
  have hdatum : Datum v := .list (List.forall_mem_cons.2 ⟨hnumber, List.forall_mem_singleton.2
    (.list (List.forall_mem_cons.2 ⟨hstring, List.forall_mem_singleton.2 hconstant⟩))⟩)
  have hlater : ∀ p ∈ run.context.bindingsOfTurns depthLimit later, p.1 ≠ "a" := by decide +kernel
  have hdefines : after.Defines [.form .lambda] := by decide +kernel
  obtain ⟨w, es, c, d, hevents, hback⟩ := reads_back depthLimit earlier hsource hlet ⟨e, hok⟩
  -- The last binding on record tells what the name is bound to.
  have hlast : run.bindings.getLast? = some ("a".toList, v) := by decide +kernel
  obtain rfl : w = v := by
    have hwhole : run.bindings = es.filterMap Event.binding? ++ [("a".toList, w)] := by
      rw [Run.bindings, hevents, List.filterMap_append]
      rfl
    rw [hwhole, List.getLast?_concat] at hlast
    exact (Prod.mk.inj (Option.some.inj hlast)).2
  obtain ⟨hroom, hanswer⟩ :=
    hback (.datum hdatum) later hlater hdefines " a " htext depthLimit
  have hfinished := hroom (by decide +kernel)
  exact ⟨⟨hsource, hlet, hok, hdatum, hlater, hdefines, htext⟩, hanswer hfinished⟩

end SpliceLisp
