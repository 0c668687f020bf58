/-
# Ways of calling a function

A function is called by putting it at the head of a list, by `apply`, by
`lambda`, by `apply` with a name that is bound to it, or by putting such a name
at the head of a list (`Expr.ways`). The last of these takes another way than
the others: both items are evaluated, and since the list of their values
mentions `lambda` it is evaluated again, with the argument's value for the
argument.

Where the argument's value is data and the texts tell apart what gets a value,
all of them have the same outcome (`evaluate_ways`). Without the cache that is
seen from their steps, for each evaluates the argument and then applies the
function to the value, in contexts with the same bindings (`Comes.way`); and
with the cache the outcomes are those without (`matches_evaluate`).

With the cache the texts do have to tell apart what gets a value. A body is
substituted into and read as text, so there can be a mark in what is evaluated
although there is none in the function and none in the argument. A function with
such a mark inside gets the value of one without it, if that was evaluated
before, as it is when it is called by name (`evaluate_ways_ne`).

Key definitions: `Expr.function`, `Expr.ways`, `Callable`.
Key theorems: `Comes.way`, `evaluate_ways`.
-/
import Mathlib
import SpliceLisp.Proofs.Afresh
import SpliceLisp.Proofs.Direct
import SpliceLisp.Proofs.WellFormed

namespace SpliceLisp

open Eval Direct

namespace Expr

def function (params body : Expr) : Expr := list [lambda, params, body]

/-- The calls of the function `fn`, to which the name `f` is bound, with one
argument expression. -/
def ways (f : Text) (fn a : Expr) : List Expr :=
  [list [fn, a], list [sym Form.apply.name, fn, a], list [lambda, fn, a],
    list [sym Form.apply.name, sym f, a], list [sym f, a]]

@[simp] theorem isFunction_function (params body : Expr) :
    (function params body).isFunction = true := by
  rw [function, isFunction, isLambda_iff]

end Expr

/-- With the function for its name, a call mentions `lambda` and looks different
from before. -/
theorem needsAnotherPass_function {f : Text} (hf : (Expr.sym f).Readable) (params body a v : Expr) :
    needsAnotherPass (Expr.list [.sym f, a]).render (Expr.list [.function params body, v]).render =
      true := by
  have hparen : '(' ∉ f := Expr.not_mem_of_readable_sym hf (by simp)
  obtain ⟨x, xs, rfl⟩ := List.exists_cons_of_ne_nil (Expr.ne_nil_of_readable_sym hf)
  have hne : x ≠ '(' := fun hx => hparen (by simp [hx])
  have hmentions : Text.mentions Expr.lambdaName (Expr.list [.function params body, v]).render =
      true :=
    Text.mentions_iff.2 ⟨['(', '('], Expr.renderRest [params, body] ++ Expr.renderRest [v], by
      simp [Expr.render, Expr.function, Expr.lambda]⟩
  rw [needsAnotherPass, hmentions, Bool.true_and, bne_iff_ne]
  intro htext
  simp only [Expr.render, Expr.function, List.cons_append, List.cons.injEq] at htext
  exact hne htext.2.1.symm

/-- The name is bound to the function, `lambda` and `apply` to their builtins,
and the constants to themselves. -/
structure Callable (c : Context) (f : Text) (fn : Expr) : Prop where
  name : c.globals.get? f = some fn
  lambda : c.globals.get? Expr.lambdaName = some (.func (.form .lambda))
  apply : c.globals.get? Form.apply.name = some (.func (.form .apply))
  constant : ∀ v ∈ [Expr.yes, Expr.no, Expr.nil], c.globals.get? v.render = some v

/-! ### Without the cache -/

section Afresh

variable {c : Context}

namespace Comes

theorem evaluateEach {es vs : List Expr}
    (h : List.Forall₂ (fun e v => Comes c (fun k => evaluateAfresh k e) (.ok v)) es vs) :
    Comes c (fun k => SpliceLisp.evaluateEach (fun e => evaluateAfresh k e) es) (.ok vs) := by
  induction h with
  | nil => exact .pure []
  | cons he _ ih => exact he.bind_iff.2 (ih.bind_iff.2 (.pure _))

theorem sym {n : Text} {v : Expr} (hv : c.globals.get? n = some v) (hlist : v.isList = false) :
    Comes c (fun k => evaluateAfresh k (.sym n)) (.ok v) := by
  refine comes_evaluateAfresh_iff.2 ((Comes.global hv).bind_iff.2 ?_)
  cases v with
  | list items => cases hlist
  | _ => exact .pure _

theorem datum (hconstant : ∀ v ∈ [Expr.yes, Expr.no, Expr.nil], c.globals.get? v.render = some v)
    {v : Expr} (h : Datum v) : Comes c (fun k => evaluateAfresh k v) (.ok v) := by
  induction h with
  | @constant v h =>
    cases v with
    | num t => exact comes_evaluateAfresh_iff.2 (.pure _)
    | str t => exact comes_evaluateAfresh_iff.2 (.pure _)
    | sym n => exact .sym (hconstant _ h) rfl
    | _ => exact h.elim
  | @list vs h ih =>
    refine comes_evaluateAfresh_iff.2 ?_
    cases vs with
    | nil => exact .pure _
    | cons head tail =>
      have hhead : Datum head := h head (by simp)
      simp only [dispatch, evaluateList, hhead.plain.isFunction]
      refine (ih head (by simp)).bind_iff.2 ?_
      have hrest : Comes c (fun k => do
          let result := Expr.list (← SpliceLisp.evaluateEach (fun e => evaluateAfresh k e)
            (head :: tail))
          if needsAnotherPass (Expr.list (head :: tail)).render result.render
            then evaluateAfresh k result
          else return result) (.ok (.list (head :: tail))) := by
        refine (Comes.evaluateEach (List.forall₂_same.2 ih)).bind_iff.2 ?_
        simp only [needsAnotherPass, bne_self_eq_false, Bool.and_false]
        exact .pure _
      cases head with
      | func p => exact absurd rfl (hhead.ne_func p)
      | _ => exact hrest

/-- A call of a form by its name comes to what the form makes of the items. -/
theorem call_iff {n : Text} {form : Form} {tail : List Expr} {r : Except Stop Expr}
    (hn : c.globals.get? n = some (.func (.form form))) :
    Comes c (fun k => evaluateAfresh k (.list (.sym n :: tail))) r ↔
      Comes c (fun k => (Procedure.form form).call (fun e => evaluateAfresh k e) tail) r := by
  rw [comes_evaluateAfresh_iff]
  exact (Comes.sym hn rfl).bind_iff

section Function

variable {f : Text} {params body a : Expr} (hparams : params.isFunction = false)
  (h : Callable c f (.function params body))
include hparams h

/-- A function comes to itself. -/
theorem function :
    Comes c (fun k => evaluateAfresh k (.function params body)) (.ok (.function params body)) := by
  refine (call_iff h.lambda).2 ((Comes.announce _).bind_iff.2 ?_)
  simp only [Form.abstract, hparams]
  exact .pure _

theorem name : Comes c (fun k => evaluateAfresh k (.sym f)) (.ok (.function params body)) := by
  refine comes_evaluateAfresh_iff.2 ((Comes.global h.name).bind_iff.2 ?_)
  exact Comes.function hparams h

omit hparams h in
/-- A function at the head of a list is applied to the value of the argument. -/
theorem applied_iff {r : Except Stop Expr} :
    Comes c (fun k => evaluateAfresh k (.list [.function params body, a])) r ↔
      Comes c (fun k => applyTo (fun e => evaluateAfresh k e) [.lambda, params, body] a) r := by
  rw [comes_evaluateAfresh_iff]
  simp only [dispatch, evaluateList, Expr.isFunction_function]
  exact (Comes.note _).bind_iff

/-- Called by its name at the head of a list, a function comes to a list with
the value of the argument, which is evaluated again. -/
theorem named_iff (hf : (Expr.sym f).Readable) {r : Except Stop Expr} :
    Comes c (fun k => evaluateAfresh k (.list [.sym f, a])) r ↔
      Comes c (fun k => evaluateAfresh k a >>= fun v =>
        evaluateAfresh k (.list [.function params body, v])) r := by
  have hname := Comes.name hparams h
  have hitems : ∀ k, (do
      let result := Expr.list (← SpliceLisp.evaluateEach (fun e => evaluateAfresh k e) [.sym f, a])
      if needsAnotherPass (Expr.list [.sym f, a]).render result.render
        then evaluateAfresh k result
      else return result : Eval Expr) = evaluateAfresh k (.sym f) >>= fun g =>
        evaluateAfresh k a >>= fun v =>
          if needsAnotherPass (Expr.list [.sym f, a]).render (Expr.list [g, v]).render
            then evaluateAfresh k (.list [g, v]) else Pure.pure (.list [g, v]) := by
    intro k
    simp only [SpliceLisp.evaluateEach, bind_assoc, pure_bind]
  rw [comes_evaluateAfresh_iff]
  refine hname.bind_iff.trans ?_
  change Comes c (fun k => (do
    let result := Expr.list (← SpliceLisp.evaluateEach (fun e => evaluateAfresh k e) [.sym f, a])
    if needsAnotherPass (Expr.list [.sym f, a]).render result.render
      then evaluateAfresh k result
    else return result : Eval Expr)) r ↔ _
  simp only [hitems]
  refine hname.bind_iff.trans ?_
  simp only [needsAnotherPass_function hf, if_true]

/-- **Every way of calling evaluates the argument and goes on from its value as
an application does.** -/
theorem way (hf : (Expr.sym f).Readable) {w : Expr}
    (hw : w ∈ Expr.ways f (.function params body) a) :
    ∃ rest : Nat → Expr → Eval Expr,
      (∀ r, Comes c (fun k => evaluateAfresh k w) r ↔
        Comes c (fun k => evaluateAfresh k a >>= rest k) r) ∧
      ∀ v, Datum v → ∀ r, Comes c (fun k => rest k v) r ↔
        Comes c (fun k => applyFunction (fun e => evaluateAfresh k e) [.lambda, params, body]
          v.spread) r := by
  have happly : ∀ {tail : List Expr} {r : Except Stop Expr},
      Comes c (fun k => evaluateAfresh k (.list (.sym Form.apply.name :: tail))) r ↔
        Comes c (fun k =>
          let ev := fun e => evaluateAfresh k e
          Form.applyWith ev (fun q es => q.perform ev (Procedure.chainLimit - 1) es) tail) r :=
    (call_iff h.apply).trans (Comes.announce _).bind_iff
  simp only [Expr.ways, List.mem_cons, List.not_mem_nil, or_false] at hw
  rcases hw with rfl | rfl | rfl | rfl | rfl
  · exact ⟨_, fun r => applied_iff, fun _ _ _ => Iff.rfl⟩
  · exact ⟨_, fun r => happly, fun _ _ _ => Iff.rfl⟩
  · refine ⟨_, fun r => ?_, fun _ _ _ => Iff.rfl⟩
    refine ((call_iff h.lambda).trans (Comes.announce _).bind_iff).trans ?_
    simp only [Form.abstract, Expr.isFunction_function]
    exact (Comes.note _).bind_iff
  · exact ⟨_, fun r => happly.trans (Comes.global h.name).bind_iff, fun _ _ _ => Iff.rfl⟩
  · refine ⟨_, fun r => named_iff hparams h hf, fun v hv r => applied_iff.trans ?_⟩
    exact (Comes.datum h.constant hv).bind_iff

end Function

end Comes

end Afresh

/-! ### With the cache -/

theorem mem_events_applied {c : Context} (hcache : c.cache = ∅) {params body a : Expr} {k : Nat}
    {event : Event} (h : event ∈ (evaluate k a c).events) :
    event ∈ (evaluate (k + 1) (.list [.function params body, a]) c).events := by
  have hnone : c.cache.get? (Expr.list [.function params body, a]).render = none := by
    rw [hcache]
    rfl
  have hstep : dispatch (fun e => evaluate k e) (.list [.function params body, a]) =
      note (fun _ => .invoked (.form .apply) .head) >>= fun _ =>
        evaluate k a >>= fun v => applyFunction (fun e => evaluate k e) [.lambda, params, body]
          v.spread := by
    simp only [dispatch, evaluateList, Expr.isFunction_function]
    rfl
  have hmem : event ∈
      (dispatch (fun e => evaluate k e) (.list [.function params body, a]) c).events := by
    rw [hstep, bind_ok (show note _ c = ⟨.ok (), c, [.invoked (.form .apply) .head]⟩ from rfl)]
    refine List.mem_append_right _ ?_
    rw [bind_apply]
    split
    · exact List.mem_append_left _ h
    · exact h
  cases hrun : dispatch (fun e => evaluate k e) (.list [.function params body, a]) c with
  | mk outcome d es =>
  rw [hrun] at hmem
  cases outcome with
  | ok v =>
    rw [evaluate_of_ok hnone hrun]
    exact List.mem_cons_of_mem _ (List.mem_append_left _ hmem)
  | error s =>
    rw [evaluate_of_error hnone hrun]
    exact List.mem_cons_of_mem _ hmem

theorem quiet_of_subset {r s : Run Expr} (h : ∀ event ∈ r.events, event ∈ s.events)
    (hunbound : s.boundNames = []) (htell : Unambiguous s.valued) :
    r.boundNames = [] ∧ Unambiguous r.valued := by
  have hsub : r.events ⊆ s.events := h
  refine ⟨List.eq_nil_of_subset_nil ?_, fun e he f hf => htell e ?_ f ?_⟩
  · exact hunbound ▸ List.filterMap_subset _ hsub
  · exact List.filterMap_subset _ hsub he
  · exact List.filterMap_subset _ hsub hf

/-- **All ways of calling a function agree.** Take a context between turns in
which `f` is bound to a function, `lambda` and `apply` to their builtins and the
constants to themselves, and an argument expression that evaluates to data, if it
has a value. If no way of calling the function with it binds a global, and in
none of them there are two expressions that get a value, have the same text and
are about different expressions, then the outcome that one way has at some depth
is that of each, from some depth on. -/
theorem evaluate_ways {c : Context} (hc : c.WellFormed) (hcache : c.cache = ∅) {f : Text}
    {params body a : Expr} (hparams : params.isFunction = false)
    (h : Callable c f (.function params body))
    (hquiet : ∀ w ∈ Expr.ways f (.function params body) a, ∀ n,
      (evaluate n w c).boundNames = [] ∧ Unambiguous (evaluate n w c).valued)
    (hdata : ∀ n v, (evaluate n a c).outcome = .ok v → Datum v)
    {w w' : Expr} (hw : w ∈ Expr.ways f (.function params body) a)
    (hw' : w' ∈ Expr.ways f (.function params body) a) {n : Nat}
    (hfin : (evaluate n w c).outcome ≠ .error .tooDeep) :
    ∃ N, ∀ k ≥ N, (evaluate k w' c).outcome = (evaluate n w c).outcome := by
  have hf : (Expr.sym f).Readable := by
    cases (Context.wellFormed_iff.1 hc).1 _ (Table.mem_entries_of_get? h.name) |>.1 with
    | sym hn => exact .sym hn
  obtain ⟨rest, hway, hrest⟩ := Comes.way hparams h hf hw
  obtain ⟨rest', hway', hrest'⟩ := Comes.way hparams h hf hw'
  have hargument : ∀ k, (evaluate k a c).boundNames = [] ∧ Unambiguous (evaluate k a c).valued := by
    intro k
    obtain ⟨hunbound, htell⟩ :=
      hquiet (.list [.function params body, a]) (by simp [Expr.ways]) (k + 1)
    exact quiet_of_subset (fun _ => mem_events_applied hcache) hunbound htell
  obtain ⟨hunbound, htell⟩ := hquiet w hw n
  have hcomes := (hway _).1 (comes_of_evaluate hcache hunbound htell hfin)
  obtain ⟨N, hafresh⟩ := hcomes.exists_finished hfin
  have hsame := evaluate_of_evaluateAfresh hcache (hargument N).1 (hargument N).2 hafresh
  have ha : Comes c (fun k => evaluateAfresh k a) (evaluate N a c).outcome :=
    comes_of_evaluate hcache (hargument N).1 (hargument N).2 (hsame ▸ hafresh)
  refine evaluate_of_comes hcache (fun k => (hquiet w' hw' k).1) (fun k => (hquiet w' hw' k).2)
    ((hway' _).2 ?_) hfin
  cases hvalue : (evaluate N a c).outcome with
  | error s =>
    rw [hvalue] at ha
    rw [hcomes.unique ha.bind_error]
    exact ha.bind_error
  | ok v =>
    rw [hvalue] at ha
    have hv : Datum v := hdata N v hvalue
    rw [ha.bind_iff, hrest' v hv, ← hrest v hv, ← ha.bind_iff]
    exact hcomes

theorem forall_depth {c : Context} {e : Expr} {P : Run Expr → Prop} (N : Nat)
    (hfin : (evaluate N e c).outcome ≠ .error .tooDeep) (h : ∀ n ≤ N, P (evaluate n e c)) :
    ∀ n, P (evaluate n e c) := by
  intro n
  obtain hn | hn := le_total n N
  · exact h n hn
  · rw [evaluate_eq_of_le hn hfin]
    exact h N le_rfl

/-- A function that a session has bound, applied to a sum at the head of a list
and by its name. -/
theorem evaluate_ways_square :
    let c := Context.startup.afterTurns depthLimit ["(let f (lambda (x) (* x x)))"]
    let params : Expr := .list [.sym "x"]
    let body : Expr := .list [.sym "*", .sym "x", .sym "x"]
    let a : Expr := .list [.list [.sym "+", .num "1", .num "2"]]
    let ways := Expr.ways "f" (.function params body) a
    let direct : Expr := .list [.function params body, a]
    let named : Expr := .list [.sym "f", a]
    (c.WellFormed ∧ c.cache = ∅ ∧ params.isFunction = false ∧
      Callable c "f" (.function params body) ∧
      (∀ w ∈ ways, ∀ n, (evaluate n w c).boundNames = [] ∧ Unambiguous (evaluate n w c).valued) ∧
      (∀ n v, (evaluate n a c).outcome = .ok v → Datum v) ∧ direct ∈ ways ∧ named ∈ ways ∧
      (evaluate 9 direct c).outcome ≠ .error .tooDeep) ∧
    ∃ N, ∀ k ≥ N, (evaluate k named c).outcome = .ok (.num "9") := by
  intro c params body a ways direct named
  have hc : c.WellFormed := Context.wellFormed_afterTurns depthLimit _
  have hcache : c.cache = ∅ := Context.cache_afterTurns depthLimit rfl _
  have hcall : Callable c "f" (.function params body) :=
    ⟨by decide +kernel, by decide +kernel, by decide +kernel, by decide +kernel⟩
  have hfinished : ∀ w ∈ ways, (evaluate 9 w c).outcome ≠ .error .tooDeep := by decide +kernel
  have hquiet : ∀ w ∈ ways, ∀ n,
      (evaluate n w c).boundNames = [] ∧ Unambiguous (evaluate n w c).valued := by
    have hall : ∀ w ∈ ways, ∀ n ≤ 9,
        (evaluate n w c).boundNames = [] ∧ Unambiguous (evaluate n w c).valued := by
      decide +kernel
    exact fun w hw => forall_depth (P := fun r => r.boundNames = [] ∧ Unambiguous r.valued) 9
      (hfinished w hw) (hall w hw)
  have hvalue : (evaluate 9 a c).outcome = .ok (.list [.num "3"]) := by decide +kernel
  have hdata : ∀ n v, (evaluate n a c).outcome = .ok v → Datum v := by
    intro n v hv
    have hsame : evaluate (max n 9) a c = evaluate n a c :=
      evaluate_eq_of_le (le_max_left n 9) (by rw [hv]; nofun)
    rw [evaluate_eq_of_le (le_max_right n 9) (by rw [hvalue]; nofun)] at hsame
    rw [hsame, hv] at hvalue
    obtain rfl := Except.ok.inj hvalue
    have hthree : Constant (.num "3") :=
      show Lexeme.Kind.admits .number "3".toList = true by decide +kernel
    exact .list fun w hw => List.mem_singleton.1 hw ▸ .constant hthree
  have hdirect : direct ∈ ways := by simp [ways, direct, Expr.ways]
  have hnamed : named ∈ ways := by simp [ways, named, Expr.ways]
  refine ⟨⟨hc, hcache, rfl, hcall, hquiet, hdata, hdirect, hnamed, hfinished _ hdirect⟩, ?_⟩
  have hparams : params.isFunction = false := rfl
  obtain ⟨N, hN⟩ := evaluate_ways hc hcache hparams hcall hquiet hdata hdirect hnamed
    (hfinished _ hdirect)
  have hnine : (evaluate 9 direct c).outcome = .ok (.num "9") := by decide +kernel
  exact ⟨N, fun k hk => (hN k hk).trans hnine⟩

def Run.called {α : Type} (r : Run α) : List Procedure := r.events.filterMap fun
  | .invoked p _ => some p
  | _ => none

/-- A parameter whose letter occurs inside a string opens a place for a mark. No
mark is in the function, in the argument or in what is bound, and neither `let`
nor `quote` is called, but the list that the function comes to holds a function
with a mark inside, or without it if the function was called by its name. -/
theorem evaluate_ways_ne :
    let c := Context.startup.afterTurns depthLimit ["(let f (lambda (t) (cons \" #t \")))"]
    let params : Expr := .list [.sym "t"]
    let body : Expr := .list [.sym "cons", .str "\" #t \""]
    let a : Expr := .list [.list [.str "\" (lambda (t) '(cons \"", .sym "#t", .str "\")) \""]]
    let ways := Expr.ways "f" (.function params body) a
    let result : Expr → Expr := fun b =>
      .list [.str "\" #(\"", .function params b, .str "\") \""]
    (c.cache = ∅ ∧ params.isFunction = false ∧ Callable c "f" (.function params body) ∧
      (Expr.function params body).Readable ∧ (Expr.function params body).holdsNoQuote = true ∧
      (∀ p ∈ c.globals.entries, p.2.holdsNoQuote = true) ∧
      a.Produced ∧ a.holdsNoQuote = true ∧ (evaluate 9 a c).outcome = .ok a ∧ Datum a ∧
      ∀ w ∈ ways, ∀ p ∈ (evaluate 9 w c).called, p ≠ .form .binding ∧ p ≠ .form .quote) ∧
    (evaluate 9 (.list [.function params body, a]) c).outcome =
      .ok (result (.quote "(cons \" #t \")")) ∧
    (evaluate 9 (.list [.sym "f", a]) c).outcome = .ok (result body) := by
  intro c params body a ways result
  have hfunction :
      Expr.read "(lambda (t) (cons \" #t \"))".toList = .ok (.function params body) := by
    decide +kernel
  have hproduced : Expr.read "((\" (lambda (t) '(cons \" #t \")) \"))".toList = .ok a := by
    decide +kernel
  have hcache : c.cache = ∅ := Context.cache_afterTurns depthLimit rfl _
  have hcall : Callable c "f" (.function params body) :=
    ⟨by decide +kernel, by decide +kernel, by decide +kernel, by decide +kernel⟩
  have hdatum : Datum a := by
    have hopen : Constant (.str "\" (lambda (t) '(cons \"") :=
      show Lexeme.Kind.admits .string "\" (lambda (t) '(cons \"".toList = true by decide +kernel
    have hclose : Constant (.str "\")) \"") :=
      show Lexeme.Kind.admits .string "\")) \"".toList = true by decide +kernel
    have hyes : Constant (.sym "#t") := List.mem_cons_self ..
    refine .list fun v hv => List.mem_singleton.1 hv ▸ .list fun w hw => ?_
    simp only [List.mem_cons, List.not_mem_nil, or_false] at hw
    obtain rfl | rfl | rfl := hw
    · exact .constant hopen
    · exact .constant hyes
    · exact .constant hclose
  refine ⟨⟨hcache, rfl, hcall, Expr.readable_of_read hfunction, ?_, ?_, ⟨_, Or.inl hproduced⟩, ?_,
    ?_, hdatum, ?_⟩, ?_, ?_⟩ <;> decide +kernel

end SpliceLisp
