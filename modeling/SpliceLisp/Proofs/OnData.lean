/-
# Calls on data

A primitive takes the values of its arguments. Where these are data it does not matter
that some are evaluated again: what it makes of them is the direct meaning
(`reaches_compute`), wherever in a turn the call is.

Two consequences. `car` and `cdr` take apart the list that an expression comes to, and
evaluating it inside the call or alone leaves the same globals (`evaluate_car_cdr`). And
a primitive that `apply` is given with a list of arguments does what it does when it is
called on them (`evaluate_apply_primitive`): the list is evaluated item by item to the
list of the values, and these are handed to the primitive, which evaluates them once
more. The list must not be headed by a function, though. Such a list is an application
and not the list of the values of its items (`evaluate_apply_ne`).

Key theorems: `Reaches.call`, `reaches_compute`, `reaches_primitive`, `evaluate_car_cdr`,
`evaluate_apply_primitive`.
-/
import Mathlib
import SpliceLisp.Proofs.Data
import SpliceLisp.Proofs.OnValues

namespace SpliceLisp

open Eval Direct

/-! ### Calls -/

section Calls

variable {c : Context} {P Q : Context → Prop}

/-- A list whose head has a procedure for its value is a call of that. -/
theorem Reaches.call {head : Expr} {tail : List Expr} {p : Procedure} {o : Except Stop Expr}
    (hhead : head.isFunction = false)
    (h : Reaches c (fun k => SpliceLisp.evaluate k head) (.ok (.func p)) P)
    (hcall : ∀ d, P d → Reaches d (fun k => p.call (SpliceLisp.evaluate k) tail) o Q) :
    Reaches c (fun k => dispatch (fun e => SpliceLisp.evaluate k e) (.list (head :: tail))) o Q := by
  simp only [dispatch, SpliceLisp.evaluateList, hhead]
  refine h.bind fun d hd => ?_
  exact hcall d hd

theorem Reaches.length_eq {es vs : List Expr}
    (h : Reaches c (fun k => arguments (SpliceLisp.evaluate k) es) (.ok vs) P) :
    vs.length = es.length := by
  obtain ⟨N, hN⟩ := h.eventually
  exact length_of_arguments (hN N le_rfl).1

theorem reaches_name {name : Text} {p : Procedure} (hnone : c.cache.get? name = none)
    (hp : c.globals.get? name = some (.func p)) :
    Reaches c (fun k => evaluate k (.sym name)) (.ok (.func p)) (c.remember name (.func p) = ·) := by
  refine Reaches.evaluate (P := (c = ·)) hnone ?_ fun d hd => by rw [hd]; rfl
  have hglobal : Reaches c (fun _ => global? name) (.ok (some (.func p))) (c = ·) :=
    hp ▸ Reaches.global? rfl name
  exact hglobal.bind fun d hd => .pure hd _

theorem Reaches.perform {p : Primitive} {es : List Expr} {o : Except Stop Expr} (links : Nat)
    (h : Reaches c (fun k => p.perform (SpliceLisp.evaluate k) es) o P) :
    Reaches c (fun k => (Procedure.primitive p).perform (SpliceLisp.evaluate k) links es) o P := by
  simp only [Procedure.perform]
  refine (Reaches.announce (P := (c = ·)) rfl _).bind ?_
  rintro _ rfl
  exact h

/-- The form `apply` hands the items of a list to the procedure that is named. -/
theorem Reaches.apply {name : Text} {q : Procedure} {argument : Expr} {vs : List Expr}
    {o : Except Stop Expr} (hq : c.globals.get? name = some (.func q))
    (h : Reaches c (fun k => SpliceLisp.evaluate k argument) (.ok (.list vs)) P)
    (hcall : ∀ links d, P d →
      Reaches d (fun k => q.perform (SpliceLisp.evaluate k) links vs) o Q) :
    Reaches c (fun k => (Procedure.form .apply).call (SpliceLisp.evaluate k)
      [.sym name, argument]) o Q := by
  -- One link of the chain is all that it takes.
  obtain ⟨links, hlinks⟩ : ∃ links, Procedure.chainLimit = links + 1 := ⟨_, rfl⟩
  simp only [Procedure.call, hlinks, Procedure.perform, Form.applyWith]
  refine (Reaches.announce (P := (c = ·)) rfl _).bind ?_
  rintro _ rfl
  have hbinding : Reaches c (fun _ => Eval.global? name) (.ok (some (.func q))) (c = ·) :=
    hq ▸ Reaches.global? rfl name
  refine hbinding.bind ?_
  rintro _ rfl
  refine h.bind fun d hd => ?_
  exact hcall links d hd

end Calls

/-! ### Primitives on data -/

section Data

variable {ps : List Procedure} (hps : ∀ p ∈ ps, p ∈ Procedure.builtins) {b c : Context}
include hps

theorem reaches_datum {v : Expr} (hv : Datum v) (h : (Facts.ofData ps).Alike b c) :
    Reaches c (fun k => evaluate k v) (.ok v) ((Facts.ofData ps).Alike b) := by
  have hyields := (Facts.sound_ofData hps).yields hv.plain.readable.wellFormed trivial
    (Or.inl ⟨hv, rfl⟩) h.right
  exact hyields.reaches.mono fun _ hd => h.trans hd

theorem reaches_data {vs : List Expr} (hvs : ∀ v ∈ vs, Datum v)
    (h : (Facts.ofData ps).Alike b c) :
    Reaches c (fun k => arguments (evaluate k) vs) (.ok vs) ((Facts.ofData ps).Alike b) := by
  simp only [arguments_eq_evaluateEach fun v hv => (hvs v hv).plain.ne_quote]
  have hyields : (Facts.ofData ps).Yields c (fun k => evaluateEach (evaluate k) vs) vs :=
    .evaluateEach (List.forall₂_same.2 fun v hv d hd =>
      reaches_datum hps (hvs v hv) hd.alike) h.right
  exact hyields.reaches.mono fun _ hd => h.trans hd

theorem reaches_selection {p : Primitive} (hp : p ∈ [Primitive.car, .cdr]) {e v : Expr}
    (hv : Datum v)
    (h : Reaches c (fun k => evaluate k e) (.ok v) ((Facts.ofData ps).Alike b)) :
    Reaches c (fun k => p.compute (evaluate k) [e]) ((onValues p [v]).mapError .fault)
      ((Facts.ofData ps).Alike b) := by
  have hitems : ∀ w ∈ v.itemsOrNone, Datum w := by
    cases v with
    | list items => exact hv.items
    | _ => simp [Expr.itemsOrNone]
  obtain rfl | hp := List.mem_cons.1 hp
  · simp only [Primitive.compute_car, Primitive.onValues_car]
    refine h.bind fun d hd => ?_
    cases hcases : v.itemsOrNone with
    | nil => exact .pure hd _
    | cons first rest =>
      have hfirst : Datum first := hitems first (by simp [hcases])
      simp only [argument_of_ne_quote hfirst.plain.ne_quote]
      exact reaches_datum hps hfirst hd
  · obtain rfl := List.mem_singleton.1 hp
    simp only [Primitive.compute_cdr, Primitive.onValues_cdr]
    refine h.bind fun d hd => ?_
    cases hcases : v.itemsOrNone with
    | nil => exact .pure hd _
    | cons first rest =>
      have hrest : ∀ w ∈ rest, Datum w := fun w hw => hitems w (by simp [hcases, hw])
      exact (reaches_data hps hrest hd).bind fun d hd => .pure hd _

/-- **A primitive makes of arguments that come to data what the direct meaning says.** -/
theorem reaches_compute {p : Primitive} (hp : p ≠ .atom) {es vs : List Expr}
    (hes : ∀ e ∈ es, ∀ t, e ≠ .quote t) (hvs : ∀ v ∈ vs, Datum v)
    (harity : p.arityFault? es.length = none)
    (h : Reaches c (fun k => arguments (evaluate k) es) (.ok vs) ((Facts.ofData ps).Alike b)) :
    Reaches c (fun k => p.compute (evaluate k) es) ((onValues p vs).mapError .fault)
      ((Facts.ofData ps).Alike b) := by
  by_cases hselection : p ∈ [Primitive.car, .cdr]
  · have hone : ∀ p ∈ [Primitive.car, .cdr], p.arity = .exactly 1 := by decide
    have hlen : es.length = 1 := Primitive.length_of_exactly harity (hone p hselection)
    obtain ⟨e, rfl⟩ := List.length_eq_one_iff.1 hlen
    obtain ⟨v, rfl⟩ := List.length_eq_one_iff.1 (h.length_eq.trans hlen)
    refine reaches_selection hps hselection (hvs v (by simp)) (.of_singleton ?_)
    simpa only [arguments, argument_of_ne_quote (hes e (by simp)), pure_bind] using h
  · have hother : p ∉ [Primitive.car, .cdr, .atom] := by simp_all
    simp only [Primitive.compute_eq hother harity]
    exact h.bind fun d hd => .ofExcept hd _

/-- A primitive that is called on arguments that come to data, or on another number of
arguments than it takes. -/
theorem reaches_primitive {p : Primitive} (hp : p ≠ .atom) {es vs : List Expr} (links : Nat)
    (hes : ∀ e ∈ es, ∀ t, e ≠ .quote t) (hvs : ∀ v ∈ vs, Datum v)
    (h : Reaches c (fun k => arguments (evaluate k) es) (.ok vs) ((Facts.ofData ps).Alike b)) :
    Reaches c (fun k => (Procedure.primitive p).perform (evaluate k) links es)
      ((Direct.perform p es (.ok vs)).mapError .fault) fun _ => True := by
  refine .perform links ?_
  rw [Direct.perform]
  cases harity : p.arityFault? es.length with
  | some f =>
    simp only [Primitive.perform, harity]
    exact .ofExcept trivial (.error f)
  | none =>
    simp only [Primitive.perform, harity, hp, if_false]
    exact (reaches_compute hps hp hes hvs harity h).mono fun _ _ => trivial

end Data

/-! ### Taking a list apart -/

/-- **`car` and `cdr` take apart the list that an expression comes to.** Between turns,
take an expression that has a non-empty list of data for its value, while the constants
and `car` and `cdr` stay bound to their names. Called on the expression, `car` has the
first item and `cdr` the list of the others, and the globals are afterwards as the
expression alone leaves them. -/
theorem evaluate_car_cdr {c : Context} (hc : c.WellFormed) (hcache : c.cache = ∅) {e : Expr}
    (he : e.Produced) {depth : Nat} {v : Expr} {vs : List Expr}
    (hvalue : (evaluate depth e c).outcome = .ok (.list (v :: vs)))
    (hdata : ∀ w ∈ v :: vs, Datum w)
    (hkept : c.Throughout (evaluate depth e c).events
      (Context.Defines · [.primitive .car, .primitive .cdr])) :
    ∃ N, ∀ k ≥ N,
      ((evaluate k (.list [.sym Primitive.car.name, e]) c).outcome = .ok v ∧
        (evaluate k (.list [.sym Primitive.car.name, e]) c).context.globals =
          (evaluate depth e c).context.globals) ∧
      (evaluate k (.list [.sym Primitive.cdr.name, e]) c).outcome = .ok (.list vs) ∧
        (evaluate k (.list [.sym Primitive.cdr.name, e]) c).context.globals =
          (evaluate depth e c).context.globals := by
  let ps : List Procedure := [.primitive .car, .primitive .cdr]
  have hps : ∀ p ∈ ps, p ∈ Procedure.builtins := by decide
  have hF : (Facts.ofData ps).Sound := Facts.sound_ofData hps
  have hholds : (Facts.ofData ps).HoldIn c := Facts.holdIn_ofData hc hcache hkept.first
  have hrespected : (Facts.ofData ps).Respected (evaluate depth e c) :=
    ⟨by rw [hvalue]; nofun, Facts.permits_of_throughout hkept⟩
  have hw : e.WellFormed := (Expr.produced_iff.1 he).wellFormed
  -- Looking up the name first makes no difference to the expression.
  have hinside : ∀ d, (Facts.ofData ps).Alike c d → Reaches d (fun k => evaluate k e)
      (.ok (.list (v :: vs))) ((Facts.ofData ps).Alike (evaluate depth e c).context) := by
    intro d hd
    have hsim := (hF.simulates_evaluate depth e hw c d hd hrespected).2
    rwa [hvalue] at hsim
  have hcall : ∀ p ∈ [Primitive.car, .cdr], ∀ w, onValues p [.list (v :: vs)] = .ok w →
      Reaches c (fun k => evaluate k (.list [.sym p.name, e])) (.ok w)
        fun d => d.globals = (evaluate depth e c).context.globals := by
    intro p hp w hw
    have hmem : Procedure.primitive p ∈ ps := by simpa [ps] using hp
    have hone : ∀ p ∈ [Primitive.car, .cdr], p.arityFault? 1 = none := by decide
    have hname := Facts.yields_name hps hmem
      (Procedure.readable_name (hps _ hmem)).1.wellFormed rfl hholds
    refine .evaluate (P := (Facts.ofData ps).Alike (evaluate depth e c).context)
      (by rw [hcache]; rfl) ?_ fun d hd => hd.globals.symm
    refine hname.reaches.call rfl fun d hd => .perform _ ?_
    simp only [Primitive.perform, List.length_singleton, hone p hp]
    have hselection := reaches_selection hps hp (.list hdata) (hinside d hd)
    rwa [hw] at hselection
  obtain ⟨M, hM⟩ := (hcall .car (by simp) v rfl).eventually
  obtain ⟨N, hN⟩ := (hcall .cdr (by simp) (.list vs) rfl).eventually
  exact ⟨max M N, fun k hk => ⟨hM k (le_of_max_le_left hk), hN k (le_of_max_le_right hk)⟩⟩

/-- A call of a function that binds a global name, in a session that has defined it. -/
theorem evaluate_car_cdr_keep :
    let c := Context.startup.afterTurns depthLimit
      ["(let keep (lambda (x) (cons (let n x) \"lambda\" ())))".toList]
    let e : Expr := .list [.sym "keep", .list [.num "7"]]
    let v : Expr := .num "7"
    let vs : List Expr := [.str "\"lambda\"", .list []]
    (c.WellFormed ∧ c.cache = ∅ ∧ e.Produced ∧
      (evaluate 9 e c).outcome = .ok (.list (v :: vs)) ∧ (∀ w ∈ v :: vs, Datum w) ∧
      c.Throughout (evaluate 9 e c).events
        (Context.Defines · [.primitive .car, .primitive .cdr])) ∧
    (evaluate 9 e c).context.globals.get? "n" = some v ∧
    ∃ N, ∀ k ≥ N,
      ((evaluate k (.list [.sym Primitive.car.name, e]) c).outcome = .ok v ∧
        (evaluate k (.list [.sym Primitive.car.name, e]) c).context.globals =
          (evaluate 9 e c).context.globals) ∧
      (evaluate k (.list [.sym Primitive.cdr.name, e]) c).outcome = .ok (.list vs) ∧
        (evaluate k (.list [.sym Primitive.cdr.name, e]) c).context.globals =
          (evaluate 9 e c).context.globals := by
  intro c e v vs
  have hc : c.WellFormed := Context.wellFormed_afterTurns depthLimit _
  have hcache : c.cache = ∅ := Context.cache_afterTurns depthLimit Context.cache_startup _
  have he : e.Produced := ⟨"(keep (7))".toList, Or.inl (by decide +kernel)⟩
  have hvalue : (evaluate 9 e c).outcome = .ok (.list (v :: vs)) := by decide +kernel
  have hdata : ∀ w ∈ v :: vs, Datum w := by
    refine List.forall_mem_cons.2 ⟨.constant ?_, List.forall_mem_cons.2 ⟨.constant ?_, ?_⟩⟩
    · exact (by decide +kernel : Lexeme.Kind.admits .number "7".toList = true)
    · exact (by decide +kernel : Lexeme.Kind.admits .string "\"lambda\"".toList = true)
    · exact List.forall_mem_singleton.2 (.list nofun)
  have hdefined : c.Defines [.primitive .car, .primitive .cdr] := by decide +kernel
  have hkept : c.Throughout (evaluate 9 e c).events
      (Context.Defines · [.primitive .car, .primitive .cdr]) :=
    hdefined.throughout (List.prefix_refl _) (by decide +kernel)
  have hglobal : (evaluate 9 e c).context.globals.get? "n" = some v := by decide +kernel
  exact ⟨⟨hc, hcache, he, hvalue, hdata, hkept⟩, hglobal,
    evaluate_car_cdr hc hcache he hvalue hdata hkept⟩

/-! ### Applying a primitive -/

theorem Expr.head?_render_list (es : List Expr) : (list es).render.head? = some '(' := by
  cases es <;> rfl

section Applying

variable {ps : List Procedure} (hps : ∀ p ∈ ps, p ∈ Procedure.builtins) {b c : Context}
  {p : Primitive} (hp : p ≠ .atom) (hmem : .primitive p ∈ ps) {es vs : List Expr}
  (hdata : ∀ v ∈ vs, Datum v) (hholds : (Facts.ofData ps).HoldIn c)
  (hitems : ∀ d, (Facts.ofData ps).Alike c d →
    Reaches d (fun k => evaluateEach (evaluate k) es) (.ok vs) ((Facts.ofData ps).Alike b))
include hps hp hmem hdata hholds hitems

theorem reaches_called (hquote : ∀ e ∈ es, ∀ t, e ≠ .quote t) :
    Reaches c (fun k => dispatch (fun e => evaluate k e) (.list (.sym p.name :: es)))
      ((Direct.perform p es (.ok vs)).mapError .fault) fun _ => True := by
  have hname := Facts.yields_name hps hmem
    (Procedure.readable_name (hps _ hmem)).1.wellFormed rfl hholds
  refine hname.reaches.call rfl fun d hd => ?_
  have harguments : Reaches d (fun k => arguments (evaluate k) es) (.ok vs)
      ((Facts.ofData ps).Alike b) := by
    simpa only [arguments_eq_evaluateEach hquote] using hitems d hd
  exact reaches_primitive hps hp _ hquote hdata harguments

omit hp hmem hholds in
/-- The list of the arguments comes to the list of their values, and the facts still
hold then. -/
theorem reaches_argument_list (hes : ∀ e ∈ es, e.WellFormed)
    (hhead : ∀ e, es.head? = some e → e.isFunction = false) {d : Context}
    (hd : (Facts.ofData ps).Alike c d) (hnone : d.cache.get? (Expr.list es).render = none) :
    Reaches d (fun k => evaluate k (.list es)) (.ok (.list vs)) (Facts.ofData ps).HoldIn := by
  have hvs : (Expr.list vs).WellFormed := (Datum.list hdata).plain.readable.wellFormed
  refine (Facts.sound_ofData hps).reaches_evaluate hd.right (.list hes) trivial hvs hnone ?_
  cases es with
  | nil =>
    obtain rfl := Except.ok.inj ((hitems d hd).unique (.pure (P := fun _ => True) trivial []))
    exact .pure hd.right _
  | cons head tail =>
    have hfunc : ∀ q, vs.head? ≠ some (.func q) := fun q hq =>
      (hdata _ (List.mem_of_mem_head? hq)).ne_func q rfl
    refine (hitems d hd).evaluateList (hhead head rfl) hfunc fun b' hb => ?_
    split
    · exact (reaches_datum hps (.list hdata) hb).mono fun _ h => h.right
    · exact .pure hb.right _

theorem reaches_applied (hquote : ∀ e ∈ es, ∀ t, e ≠ .quote t) (happly : .form .apply ∈ ps)
    (hcache : c.cache = ∅) (hes : ∀ e ∈ es, e.WellFormed)
    (hhead : ∀ e, es.head? = some e → e.isFunction = false) :
    Reaches c (fun k => dispatch (fun e => evaluate k e)
        (.list [.sym Form.apply.name, .sym p.name, .list es]))
      ((Direct.perform p es (.ok vs)).mapError .fault) fun _ => True := by
  have hname : Reaches c (fun k => evaluate k (.sym Form.apply.name)) (.ok (.func (.form .apply)))
      (c.remember Form.apply.name (.func (.form .apply)) = ·) :=
    reaches_name (by rw [hcache]; rfl) (hholds.bound (Or.inr ⟨_, happly, rfl, rfl⟩))
  refine hname.call rfl ?_
  rintro _ rfl
  -- Only the name of the form is kept by now, which is not the text of a list.
  have hd : (Facts.ofData ps).Alike c (c.remember Form.apply.name (.func (.form .apply))) :=
    hholds.alike_remember (Facts.consistent_ofData hps) (Or.inr ⟨_, happly, rfl, rfl⟩)
  have htext : (Expr.list es).render ≠ Form.apply.name := fun h =>
    absurd ((Expr.head?_render_list es).symm.trans (congrArg List.head? h)) (by decide)
  have hnone : (c.remember Form.apply.name (.func (.form .apply))).cache.get?
      (Expr.list es).render = none := by
    rw [Context.remember, Table.get?_insert_of_ne _ _ htext, hcache]
    rfl
  have hlist := reaches_argument_list hps hdata hitems hes hhead hd hnone
  have hlen : vs.length = es.length := by
    have hc := hitems c hholds.alike
    simp only [← arguments_eq_evaluateEach hquote] at hc
    exact hc.length_eq
  have hsame : Direct.perform p es (.ok vs) = Direct.perform p vs (.ok vs) := by
    simp only [Direct.perform, hlen, hp, if_false]
  rw [hsame]
  refine hlist.apply (hd.right.bound (Or.inr ⟨_, hmem, rfl, rfl⟩)) fun links d hd => ?_
  exact reaches_primitive hps hp links (fun v hv => (hdata v hv).plain.ne_quote) hdata
    (reaches_data hps hdata hd.alike)

end Applying

/-- **A primitive applied to a list does what it does when it is called on the items.**
Between turns, with the constants, `apply` and the primitive bound as at the start, take
expressions of which none is deferred and the first is not a function, and which come to
data one after the other without binding a name. Both expressions come to what the
primitive makes of these data, be it a value or a fault. -/
theorem evaluate_apply_primitive {c : Context} (hc : c.WellFormed) (hcache : c.cache = ∅)
    {p : Primitive} (hp : p ≠ .atom) (hdefined : c.Defines [.form .apply, .primitive p])
    {es vs : List Expr} (hes : ∀ e ∈ es, e.Produced) (hquote : ∀ e ∈ es, ∀ t, e ≠ .quote t)
    (hhead : ∀ e, es.head? = some e → e.isFunction = false) {depth : Nat}
    (hvs : (evaluateEach (evaluate depth) es c).outcome = .ok vs)
    (hunbound : (evaluateEach (evaluate depth) es c).boundNames = [])
    (hdata : ∀ v ∈ vs, Datum v) :
    ∃ N, ∀ k ≥ N,
      (evaluate k (.list [.sym Form.apply.name, .sym p.name, .list es]) c).outcome =
          (Direct.perform p es (.ok vs)).mapError .fault ∧
        (evaluate k (.list (.sym p.name :: es)) c).outcome =
          (Direct.perform p es (.ok vs)).mapError .fault := by
  let ps : List Procedure := [.form .apply, .primitive p]
  have hps : ∀ q ∈ ps, q ∈ Procedure.builtins :=
    List.forall_mem_cons.2 ⟨by decide, List.forall_mem_singleton.2 (mem_builtins_primitive p)⟩
  have hF : (Facts.ofData ps).Sound := Facts.sound_ofData hps
  have hholds : (Facts.ofData ps).HoldIn c := Facts.holdIn_ofData hc hcache hdefined
  have hw : ∀ e ∈ es, e.WellFormed := fun e he => (Expr.produced_iff.1 (hes e he)).wellFormed
  have hrespected : (Facts.ofData ps).Respected (evaluateEach (evaluate depth) es c) := by
    refine ⟨by rw [hvs]; nofun, fun event hevent => ?_⟩
    cases event with
    | bound name v =>
      have hname := Run.mem_boundNames.2 ⟨v, hevent⟩
      rw [hunbound] at hname
      cases hname
    | _ => trivial
  -- The items come to the data also behind what both expressions look up before them.
  have hitems : ∀ d, (Facts.ofData ps).Alike c d →
      Reaches d (fun k => evaluateEach (evaluate k) es) (.ok vs)
        ((Facts.ofData ps).Alike (evaluateEach (evaluate depth) es c).context) := by
    intro d hd
    have hsim := (Facts.congruence_simulates.evaluateEach
      (fun e he => hF.simulates_evaluate depth e he) hw c d hd hrespected).2
    rwa [hvs] at hsim
  have hcalled := reaches_called hps hp (by simp [ps]) hdata hholds hitems hquote
  have happlied := reaches_applied hps hp (by simp [ps]) hdata hholds hitems hquote
    (by simp [ps]) hcache hw hhead
  obtain ⟨M, hM⟩ := happlied.outcome_evaluate (by rw [hcache]; rfl)
  obtain ⟨N, hN⟩ := hcalled.outcome_evaluate (by rw [hcache]; rfl)
  exact ⟨max M N, fun k hk => ⟨hM k (le_of_max_le_left hk), hN k (le_of_max_le_right hk)⟩⟩

/-- The call of a function beside a string with the letters of `lambda`, so that there is
a second pass over the list. -/
theorem evaluate_apply_primitive_cons :
    let c := Context.startup.afterTurns depthLimit ["(let inc (lambda (x) (+ x 1)))".toList]
    let es : List Expr := [.list [.sym "inc", .list [.num "1"]], .str "\"lambda\""]
    let vs : List Expr := [.num "2", .str "\"lambda\""]
    let items := evaluateEach (evaluate 9) es c
    (c.WellFormed ∧ c.cache = ∅ ∧ Primitive.cons ≠ .atom ∧
      c.Defines [.form .apply, .primitive .cons] ∧ (∀ e ∈ es, e.Produced) ∧
      (∀ e ∈ es, ∀ t, e ≠ .quote t) ∧ (∀ e, es.head? = some e → e.isFunction = false) ∧
      items.outcome = .ok vs ∧ items.boundNames = [] ∧ ∀ v ∈ vs, Datum v) ∧
    needsAnotherPass (Expr.list es).render (Expr.list vs).render = true ∧
    ∃ N, ∀ k ≥ N,
      (evaluate k (.list [.sym Form.apply.name, .sym Primitive.cons.name, .list es]) c).outcome =
          .ok (.list vs) ∧
        (evaluate k (.list (.sym Primitive.cons.name :: es)) c).outcome = .ok (.list vs) := by
  intro c es vs items
  have hc : c.WellFormed := Context.wellFormed_afterTurns depthLimit _
  have hcache : c.cache = ∅ := Context.cache_afterTurns depthLimit Context.cache_startup _
  have hdefined : c.Defines [.form .apply, .primitive .cons] := by decide +kernel
  have hread : Expr.read "((inc (1)) \"lambda\")".toList = .ok (.list es) := by decide +kernel
  have hes : ∀ e ∈ es, e.Produced := fun e he =>
    Expr.produced_iff.2 ((Expr.readable_of_read hread).items e he)
  have hquote : ∀ e ∈ es, ∀ t, e ≠ .quote t := by simp [es]
  have hhead : ∀ e, es.head? = some e → e.isFunction = false := by
    rintro _ ⟨⟩
    decide
  have hvs : items.outcome = .ok vs := by decide +kernel
  have hunbound : items.boundNames = [] := by decide +kernel
  have hdata : ∀ v ∈ vs, Datum v := by
    refine List.forall_mem_cons.2 ⟨.constant ?_, List.forall_mem_singleton.2 (.constant ?_)⟩
    · exact (by decide +kernel : Lexeme.Kind.admits .number "2".toList = true)
    · exact (by decide +kernel : Lexeme.Kind.admits .string "\"lambda\"".toList = true)
  exact ⟨⟨hc, hcache, by decide, hdefined, hes, hquote, hhead, hvs, hunbound, hdata⟩,
    by decide +kernel,
    evaluate_apply_primitive hc hcache (by decide) hdefined hes hquote hhead hvs hunbound hdata⟩

/-- In a new session, where the first argument is a function that is built and applied
on the way. The list of the arguments begins with it, so it is an application, and its
value is no list of two items. -/
theorem evaluate_apply_ne :
    let increment : Expr :=
      .list [.sym "lambda", .list [.sym "x"], .list [.sym "+", .sym "x", .num "1"]]
    let es : List Expr := [.list [.sym "lambda", increment, .num "5"], .num "2"]
    let vs : List Expr := [.num "6", .num "2"]
    let c := Context.startup
    let items := evaluateEach (evaluate 9) es c
    (c.WellFormed ∧ c.cache = ∅ ∧ c.Defines [.form .apply, .primitive .add] ∧
      (∀ e ∈ es, e.Produced) ∧ (∀ e ∈ es, ∀ t, e ≠ .quote t) ∧ items.outcome = .ok vs ∧
      items.boundNames = [] ∧ ∀ v ∈ vs, Datum v) ∧
    ∀ k ≥ 9,
      (evaluate k (.list [.sym Form.apply.name, .sym Primitive.add.name, .list es]) c).outcome =
          .error (.fault (.notAtLeast "+" 2)) ∧
        (evaluate k (.list (.sym Primitive.add.name :: es)) c).outcome = .ok (.num "8") := by
  intro increment es vs c items
  have hread : Expr.read "((lambda (lambda (x) (+ x 1)) 5) 2)".toList = .ok (.list es) := by
    decide +kernel
  have hes : ∀ e ∈ es, e.Produced := fun e he =>
    Expr.produced_iff.2 ((Expr.readable_of_read hread).items e he)
  have hquote : ∀ e ∈ es, ∀ t, e ≠ .quote t := by simp [es]
  have hdefined : c.Defines [.form .apply, .primitive .add] := by decide +kernel
  have hvs : items.outcome = .ok vs := by decide +kernel
  have hunbound : items.boundNames = [] := by decide +kernel
  have hdata : ∀ v ∈ vs, Datum v := by
    refine List.forall_mem_cons.2 ⟨.constant ?_, List.forall_mem_singleton.2 (.constant ?_)⟩
    · exact (by decide +kernel : Lexeme.Kind.admits .number "6".toList = true)
    · exact (by decide +kernel : Lexeme.Kind.admits .number "2".toList = true)
  have happlied : (evaluate 9 (.list [.sym Form.apply.name, .sym Primitive.add.name, .list es])
      c).outcome = .error (.fault (.notAtLeast "+" 2)) := by
    decide +kernel
  have hcalled : (evaluate 9 (.list (.sym Primitive.add.name :: es)) c).outcome =
      .ok (.num "8") := by
    decide +kernel
  refine ⟨⟨Context.wellFormed_startup, rfl, hdefined, hes, hquote, hvs, hunbound, hdata⟩, ?_⟩
  intro k hk
  rw [evaluate_eq_of_le hk (by rw [happlied]; nofun), evaluate_eq_of_le hk (by rw [hcalled]; nofun)]
  exact ⟨happlied, hcalled⟩

end SpliceLisp
