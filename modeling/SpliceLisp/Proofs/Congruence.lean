/-
# What every step of the language respects

Many facts about evaluation go through each primitive, form and application in
the same way: a fact about the parts is composed to one about the whole. Here
that is done once. A relation between an evaluation and a family of others, with
what can be said of the value, is a `Congruence` when the few basic steps are
related to themselves and sequencing respects it. Then so does one step into any
expression, whatever evaluates the parts (`Congruence.dispatch`). With an empty
family this is about an invariant of one evaluator; with another evaluator in
the family, about two of them.

A `Domain` says which expressions may be met. A procedure may be met inside a
list, but only an allowed one as a value, since a value is never an expression
that cannot be evaluated. Only a value is called, but for `apply` and `eq`, which
the evaluator, `lambda` and `neq` call themselves (`Domain.Calls`). So a global is
bound, and the session asked to end, only where `let` and `quit` are allowed. That
no operation leaves its domain is part of the argument: nothing is assumed about
`Stop.undefined`.

Key definitions: `Domain`, `Congruence`.
Key theorems: `Congruence.primitive`, `Congruence.perform`, `Congruence.dispatch`.
-/
import Mathlib
import SpliceLisp.Proofs.Defined
import SpliceLisp.Proofs.Round

namespace SpliceLisp

open Eval

/-- The procedure that the code of a procedure calls, if any. -/
def Procedure.delegate? : Procedure → Option Procedure
  | .form .lambda => some (.form .apply)
  | .primitive .neq => some (.primitive .eq)
  | _ => none

theorem Procedure.delegate?_cases {p q : Procedure} (h : q.delegate? = some p) :
    (q = .form .lambda ∧ p = .form .apply) ∨ (q = .primitive .neq ∧ p = .primitive .eq) := by
  unfold delegate? at h
  split at h
  · exact Or.inl ⟨rfl, (Option.some.inj h).symm⟩
  · exact Or.inr ⟨rfl, (Option.some.inj h).symm⟩
  · cases h

/-- Which expressions may be met (`good`), and which procedures may be values
(`allowed`). -/
structure Domain where
  good : Expr → Prop
  allowed : Procedure → Prop
  items : ∀ {es : List Expr}, good (.list es) → ∀ e ∈ es, good e
  list : ∀ {es : List Expr}, (∀ e ∈ es, good e) → good (.list es)
  quote : ∀ {e : Expr}, good e → good (.quote e.render)
  read : ∀ {source : Text} {e : Expr}, Expr.read source = .ok e → good e
  number : ∀ {x : Binary64} {e : Expr}, Expr.ofNumber x = .ok e → good e
  constant : ∀ e ∈ [Expr.yes, Expr.no, Expr.nil, Expr.lambda], good e

namespace Domain

variable (D : Domain)

/-- Whether the expression may be a value. -/
def Fine (v : Expr) : Prop := D.good v ∧ ∀ p, v = .func p → D.allowed p

/-- What the expression may return. If it returns at all, it may be a value
itself. -/
def Returns (e v : Expr) : Prop := D.Fine v ∧ D.Fine e

/-- Whether the procedure may be called by the route. Only a call by its value asks that
it may be a value itself. -/
def Calls (p : Procedure) : Route → Prop
  | .value => D.allowed p
  | .head => p = .form .apply
  | .within q => D.allowed q ∧ q.delegate? = some p

variable {D} in
theorem Calls.allowed_or {p : Procedure} {route : Route} (h : D.Calls p route) :
    D.allowed p ∨ p = .form .apply ∨ p = .primitive .eq := by
  cases route with
  | value => exact Or.inl h
  | head => exact Or.inr (Or.inl h)
  | within q =>
    rcases Procedure.delegate?_cases h.2 with ⟨-, hp⟩ | ⟨-, hp⟩
    · exact Or.inr (Or.inl hp)
    · exact Or.inr (Or.inr hp)

def everything : Domain where
  good _ := True
  allowed _ := True
  items _ _ _ := trivial
  list _ := trivial
  quote _ := trivial
  read _ := trivial
  number _ := trivial
  constant _ _ := trivial

theorem fine_everything (v : Expr) : everything.Fine v := ⟨trivial, fun _ _ => trivial⟩

theorem returns_everything (e v : Expr) : everything.Returns e v :=
  ⟨fine_everything v, fine_everything e⟩

variable {D}

theorem Fine.good {v : Expr} (h : D.Fine v) : D.good v := h.1

theorem fine_of_good {v : Expr} (h : D.good v) (hv : ∀ p, v ≠ .func p) : D.Fine v :=
  ⟨h, fun p hp => absurd hp (hv p)⟩

theorem fine_list {es : List Expr} (h : ∀ e ∈ es, D.good e) : D.Fine (.list es) :=
  fine_of_good (D.list h) (by simp)

theorem fine_nil : D.Fine Expr.nil := fine_of_good (D.constant _ (by simp)) (by simp [Expr.nil])

theorem fine_ofBool (b : Bool) : D.Fine (Expr.ofBool b) := by
  cases b with
  | true => exact fine_of_good (D.constant _ (by simp [Expr.ofBool])) (by simp [Expr.ofBool, Expr.yes])
  | false => exact fine_of_good (D.constant _ (by simp [Expr.ofBool])) (by simp [Expr.ofBool, Expr.no])

theorem good_spread {e : Expr} (h : D.good e) : ∀ d ∈ e.spread, D.good d := by
  cases e with
  | list items => exact D.items h
  | _ => simpa [Expr.spread] using h

end Domain

/-- A relation between an evaluation and a family of evaluations, where the
first argument is about the value. -/
abbrev Relation (ι : Type) : Type 1 := (α : Type) → (α → Prop) → Eval α → (ι → Eval α) → Prop

/-- The basic steps are related to themselves, and sequencing respects the
relation. -/
structure Congruence {ι : Type} (D : Domain) (R : Relation ι) : Prop where
  pure : ∀ {α : Type} {V : α → Prop} {a : α}, V a → R α V (pure a) fun _ => pure a
  bind : ∀ {α β : Type} {V : α → Prop} {W : β → Prop} {m : Eval α} {m' : ι → Eval α}
    {f : α → Eval β} {f' : ι → α → Eval β}, R α V m m' →
      (∀ a, V a → R β W (f a) fun i => f' i a) → R β W (m >>= f) fun i => m' i >>= f' i
  fail : ∀ {α : Type} {V : α → Prop} (f : Fault), R α V (fail f) fun _ => fail f
  quit : ∀ {V : Expr → Prop}, D.allowed (.form .quit) →
    R Expr V (stop .quit) fun _ => stop .quit
  tooDeep : ∀ {V : Expr → Prop}, R Expr V tooDeep fun _ => tooDeep
  invoked : ∀ {p : Procedure} {route : Route}, D.Calls p route →
    R Unit (fun _ => True) (note fun _ => .invoked p route) fun _ => note fun _ => .invoked p route
  applied : ∀ (e : Expr) (source : Text),
    R Unit (fun _ => True) (note fun _ => .applied e source) fun _ => note fun _ => .applied e source
  global? : ∀ name : Text,
    R (Option Expr) (fun b => ∀ v, b = some v → D.Fine v) (global? name) fun _ => global? name
  bindGlobal : ∀ {name : Text} {v : Expr}, D.allowed (.form .binding) → D.good (.sym name) →
    D.Fine v → R Unit (fun _ => True) (bindGlobal name v) fun _ => bindGlobal name v

namespace Congruence

variable {ι : Type} {D : Domain} {R : Relation ι} (h : Congruence D R)
include h

theorem mono {α : Type} {V W : α → Prop} {m : Eval α} {m' : ι → Eval α} (hm : R α V m m')
    (hVW : ∀ a, V a → W a) : R α W m m' := by
  have hpure := h.bind hm fun a ha => h.pure (hVW a ha)
  simpa only [bind_pure] using hpure

theorem ofExcept {α : Type} {V : α → Prop} {r : Except Fault α} (hr : ∀ a, r = .ok a → V a) :
    R α V (ofExcept r) fun _ => Eval.ofExcept r := by
  cases r with
  | ok a => exact h.pure (hr a rfl)
  | error f => exact h.fail f

theorem defined {α : Type} {V : α → Prop} {operation : Operation} {o : Option α} {a : α}
    (ho : o = some a) (ha : V a) :
    R α V (defined operation o) fun _ => Eval.defined operation o := by
  rw [ho]
  exact h.pure ha

theorem number (x : Binary64) :
    R Expr D.Fine (Primitive.number x) fun _ => Primitive.number x := by
  refine h.ofExcept fun e he => Domain.fine_of_good (D.number he) fun p hp => ?_
  subst hp
  cases x <;> cases he

section Parts

variable {ev : Expr → Eval Expr} {ev' : ι → Expr → Eval Expr}
  (hev : ∀ e, D.good e → R Expr (D.Returns e) (ev e) fun i => ev' i e)
include hev

theorem argument {e : Expr} (he : D.good e) :
    R Expr D.Fine (argument ev e) fun i => SpliceLisp.argument (ev' i) e := by
  cases e with
  | quote t => exact h.pure (Domain.fine_of_good he (by simp))
  | _ => exact h.mono (hev _ he) fun v hv => hv.1

theorem arguments : ∀ {es : List Expr}, (∀ e ∈ es, D.good e) →
    R (List Expr) (fun vs => vs.length = es.length ∧ ∀ v ∈ vs, D.Fine v) (arguments ev es)
      fun i => SpliceLisp.arguments (ev' i) es
  | [], _ => h.pure ⟨rfl, by simp⟩
  | e :: es, hes => by
    have hrest : R (List Expr) (fun vs => vs.length = es.length ∧ ∀ v ∈ vs, D.Fine v)
        (SpliceLisp.arguments ev es) fun i => SpliceLisp.arguments (ev' i) es :=
      arguments fun d hd => hes d (by simp [hd])
    refine h.bind (h.argument hev (hes e (by simp))) fun v hv => ?_
    refine h.bind hrest fun vs hvs => h.pure ⟨by simp [hvs.1], fun w hw => ?_⟩
    rcases List.mem_cons.1 hw with rfl | hw
    · exact hv
    · exact hvs.2 w hw

theorem evaluateEach : ∀ {es : List Expr}, (∀ e ∈ es, D.good e) →
    R (List Expr) (fun vs => ∀ v ∈ vs, D.Fine v) (evaluateEach ev es)
      fun i => SpliceLisp.evaluateEach (ev' i) es
  | [], _ => h.pure (by simp)
  | e :: es, hes => by
    have hrest : R (List Expr) (fun vs => ∀ v ∈ vs, D.Fine v)
        (SpliceLisp.evaluateEach ev es) fun i => SpliceLisp.evaluateEach (ev' i) es :=
      evaluateEach fun d hd => hes d (by simp [hd])
    refine h.bind (hev e (hes e (by simp))) fun v hv => ?_
    refine h.bind hrest fun vs hvs => h.pure fun w hw => ?_
    rcases List.mem_cons.1 hw with rfl | hw
    · exact hv.1
    · exact hvs w hw

/-! ### Primitives -/

theorem numbers {es : List Expr} (hes : ∀ e ∈ es, D.good e) :
    R (List Binary64) (fun xs => xs.length = es.length ∧ ∀ x ∈ xs, x.isFinite = true)
      (numbers ev es) fun i => SpliceLisp.numbers (ev' i) es := by
  refine h.bind (h.arguments hev hes) fun vs hvs => ?_
  refine h.bind (h.ofExcept (V := fun xs => xs.length = es.length) fun xs hxs => ?_) fun xs hxs => ?_
  · exact (length_of_mapM hxs).trans hvs.1
  · split
    · next hall => exact h.pure ⟨hxs, List.all_eq_true.1 hall⟩
    · exact h.fail _

theorem booleans {es : List Expr} (hes : ∀ e ∈ es, D.good e) :
    R (List Bool) (fun bs => bs.length = es.length) (booleans ev es)
      fun i => SpliceLisp.booleans (ev' i) es := by
  refine h.bind (h.arguments hev hes) fun vs hvs => h.ofExcept fun bs hbs => ?_
  exact (length_of_mapM hbs).trans hvs.1

theorem twoNumbers {es : List Expr} (hes : ∀ e ∈ es, D.good e) (hlen : es.length = 2)
    {m : Binary64 × Binary64 → Eval Expr}
    (hm : ∀ a b, a.isFinite = true → b.isFinite = true → R Expr D.Fine (m (a, b)) fun _ => m (a, b)) :
    R Expr D.Fine (SpliceLisp.numbers ev es >>= fun xs => Eval.defined .unpacking (theTwo xs) >>= m)
      fun i => SpliceLisp.numbers (ev' i) es >>= fun xs =>
        Eval.defined .unpacking (theTwo xs) >>= m := by
  refine h.bind (h.numbers hev hes) fun xs hxs => ?_
  obtain ⟨a, b, rfl⟩ := List.length_eq_two.1 (hxs.1.trans hlen)
  have hab : a.isFinite = true ∧ b.isFinite = true := ⟨hxs.2 a (by simp), hxs.2 b (by simp)⟩
  refine h.bind (h.defined (V := fun x => x = (a, b)) rfl rfl) fun x hx => ?_
  exact hx ▸ hm a b hab.1 hab.2

omit hev in
/-- A quotient or remainder is defined for a divisor other than zero. -/
theorem quotient {operation : Operation} {fault : Fault} {a b : Binary64}
    {f : Binary64 → Binary64 → Option Binary64} (hf : b.isZero = false → (f a b).isSome = true) :
    R Expr D.Fine
      (if b.isZero then Eval.fail fault else Eval.defined operation (f a b) >>= Primitive.number)
      fun _ => if b.isZero then Eval.fail fault
        else Eval.defined operation (f a b) >>= Primitive.number := by
  cases hz : b.isZero with
  | true => exact h.fail fault
  | false =>
    obtain ⟨q, hq⟩ := Option.isSome_iff_exists.1 (hf hz)
    exact h.bind (h.defined (V := fun _ => True) hq trivial) fun x _ => h.number x

theorem remainder {es : List Expr} (hes : ∀ e ∈ es, D.good e) (hlen : es.length = 2) :
    R Expr D.Fine (Primitive.remainder ev es) fun i => Primitive.remainder (ev' i) es :=
  h.twoNumbers hev hes hlen fun _ _ ha hb =>
    h.quotient fun hz => (Binary64.isSome_of_isFinite ha hb hz).2

theorem equal {es : List Expr} (hes : ∀ e ∈ es, D.good e) (hlen : es.length = 2) :
    R Bool (fun _ => True) (Primitive.equal ev es) fun i => Primitive.equal (ev' i) es := by
  refine h.bind (h.arguments hev hes) fun vs hvs => ?_
  obtain ⟨a, b, rfl⟩ := List.length_eq_two.1 (hvs.1.trans hlen)
  exact h.bind (h.defined (V := fun _ => True) rfl trivial) fun _ _ => h.pure trivial

theorem listItems {e : Expr} (he : D.good e) :
    R (List Expr) (fun items => ∀ d ∈ items, D.good d) (Primitive.listItems ev [e])
      fun i => Primitive.listItems (ev' i) [e] := by
  refine h.bind (h.defined (V := fun d => d = e) rfl rfl) fun d hd => ?_
  subst hd
  refine h.bind (hev _ he) fun v hv => ?_
  cases v with
  | list items => exact h.pure (D.items hv.1.good)
  | _ => exact h.pure (by simp)

theorem compute (p : Primitive) {es : List Expr} (hes : ∀ e ∈ es, D.good e)
    (harity : p.arityFault? es.length = none) :
    R Expr D.Fine (p.compute ev es) fun i => p.compute (ev' i) es := by
  have hexactly : ∀ n, p.arity = .exactly n → es.length = n := fun _ =>
    Primitive.length_of_exactly harity
  have htruth : ∀ b, R Expr D.Fine (Pure.pure (Expr.ofBool b)) fun _ => Pure.pure (Expr.ofBool b) :=
    fun b => h.pure (Domain.fine_ofBool b)
  cases p with
  | add => exact h.bind (h.numbers hev hes) fun xs _ => h.number _
  | sub =>
    refine h.bind (h.numbers hev hes) fun xs hxs => ?_
    have hlen : 2 ≤ es.length := Primitive.length_of_atLeast harity rfl
    cases xs with
    | nil =>
      rw [← hxs.1] at hlen
      cases hlen
    | cons a rest => exact h.bind (h.defined (V := fun _ => True) rfl trivial) fun _ _ => h.number _
  | mul => exact h.twoNumbers hev hes (hexactly 2 rfl) fun _ _ _ _ => h.number _
  | div =>
    exact h.twoNumbers hev hes (hexactly 2 rfl) fun _ _ ha hb =>
      h.quotient fun hz => (Binary64.isSome_of_isFinite ha hb hz).1
  | mod => exact h.remainder hev hes (hexactly 2 rfl)
  | percent => exact h.remainder hev hes (hexactly 2 rfl)
  | less => exact h.twoNumbers hev hes (hexactly 2 rfl) fun _ _ _ _ => htruth _
  | greater => exact h.twoNumbers hev hes (hexactly 2 rfl) fun _ _ _ _ => htruth _
  | and => exact h.bind (h.booleans hev hes) fun _ _ => htruth _
  | or => exact h.bind (h.booleans hev hes) fun _ _ => htruth _
  | not =>
    refine h.bind (h.booleans hev hes) fun bs hbs => ?_
    obtain ⟨b, rfl⟩ := List.length_eq_one_iff.1 (hbs.trans (hexactly 1 rfl))
    exact h.bind (h.defined (V := fun _ => True) rfl trivial) fun _ _ => htruth _
  | cons =>
    refine h.bind (h.arguments hev hes) fun vs hvs => h.pure ?_
    exact Domain.fine_list fun v hv => (hvs.2 v hv).good
  | car =>
    obtain ⟨e, rfl⟩ := List.length_eq_one_iff.1 (hexactly 1 rfl)
    refine h.bind (h.listItems hev (hes e (by simp))) fun items hitems => ?_
    cases items with
    | nil => exact h.pure Domain.fine_nil
    | cons first rest => exact h.argument hev (hitems first (by simp))
  | cdr =>
    obtain ⟨e, rfl⟩ := List.length_eq_one_iff.1 (hexactly 1 rfl)
    refine h.bind (h.listItems hev (hes e (by simp))) fun items hitems => ?_
    cases items with
    | nil => exact h.pure Domain.fine_nil
    | cons first rest =>
      refine h.bind (h.arguments hev fun d hd => hitems d (by simp [hd])) fun vs hvs => h.pure ?_
      exact Domain.fine_list fun v hv => (hvs.2 v hv).good
  | atom =>
    obtain ⟨e, rfl⟩ := List.length_eq_one_iff.1 (hexactly 1 rfl)
    exact h.bind (h.defined (V := fun _ => True) rfl trivial) fun _ _ => htruth _
  | eq => exact h.bind (h.equal hev hes (hexactly 2 rfl)) fun _ _ => htruth _
  | neq => exact h.bind (h.equal hev hes (hexactly 2 rfl)) fun _ _ => htruth _

theorem primitive (p : Primitive) {es : List Expr} (hes : ∀ e ∈ es, D.good e) :
    R Expr D.Fine (p.perform ev es) fun i => p.perform (ev' i) es := by
  unfold Primitive.perform
  split
  · exact h.fail _
  · next harity => exact h.compute hev p hes harity

/-! ### Forms -/

theorem clauses : ∀ {cs : List Expr}, (∀ c ∈ cs, D.good c) →
    R Expr D.Fine (clauses ev cs) fun i => SpliceLisp.clauses (ev' i) cs
  | [], _ => h.pure Domain.fine_nil
  | c :: cs, hcs => by
    have hrest : R Expr D.Fine (SpliceLisp.clauses ev cs) fun i => SpliceLisp.clauses (ev' i) cs :=
      clauses fun d hd => hcs d (by simp [hd])
    by_cases hc : ∃ test result, c = .list [test, result]
    · obtain ⟨test, result, rfl⟩ := hc
      have hparts : ∀ d ∈ [test, result], D.good d := D.items (hcs _ (by simp))
      refine h.bind (hev test (hparts test (by simp))) fun v _ => ?_
      cases v.isTrue with
      | true => exact h.mono (hev result (hparts result (by simp))) fun w hw => hw.1
      | false => exact hrest
    · have hne : ∀ test result, c ≠ .list [test, result] :=
        fun test result he => hc ⟨test, result, he⟩
      simp only [clauses_malformed hne]
      exact h.fail _

theorem readAndEvaluate (source : Text) :
    R Expr D.Fine (Eval.ofExcept (Expr.read source) >>= ev)
      fun i => Eval.ofExcept (Expr.read source) >>= ev' i :=
  h.bind (h.ofExcept fun _ => D.read) fun e he => h.mono (hev e he) fun _ hv => hv.1

theorem applyFunction (items args : List Expr) :
    R Expr D.Fine (applyFunction ev items args) fun i => SpliceLisp.applyFunction (ev' i) items args := by
  unfold SpliceLisp.applyFunction
  split
  · split
    · exact h.fail _
    · split
      · split
        · exact h.fail _
        · exact h.bind (h.applied _ _) fun _ _ => h.readAndEvaluate hev _
      · exact h.pure Domain.fine_nil
  · exact h.fail _

theorem applyTo (items : List Expr) {e : Expr} (he : D.good e) :
    R Expr D.Fine (applyTo ev items e) fun i => SpliceLisp.applyTo (ev' i) items e :=
  h.bind (hev e he) fun _ _ => h.applyFunction hev _ _

theorem applyHead (route : Route) (hroute : D.Calls (.form .apply) route) {es : List Expr}
    (hes : ∀ e ∈ es, D.good e) :
    R Expr D.Fine (applyHead ev route es) fun i => SpliceLisp.applyHead (ev' i) route es := by
  refine h.bind (h.invoked hroute) fun _ _ => ?_
  split
  · exact h.applyTo hev _ (hes _ (by simp))
  · exact h.fail _

omit hev in
theorem defer {es : List Expr} (hes : ∀ e ∈ es, D.good e) :
    R Expr D.Fine (Form.defer es) fun _ => Form.defer es := by
  unfold Form.defer
  split
  · exact h.pure (Domain.fine_of_good (D.quote (hes _ (by simp))) (by simp))
  · exact h.fail _

theorem binding (hp : D.allowed (.form .binding)) {es : List Expr} (hes : ∀ e ∈ es, D.good e) :
    R Expr D.Fine (Form.bind ev es) fun i => Form.bind (ev' i) es := by
  unfold Form.bind
  split
  · next name e =>
    refine h.bind (hev e (hes e (by simp))) fun v hv => ?_
    exact h.bind (h.bindGlobal hp (hes _ (by simp)) hv.1) fun _ _ => h.pure hv.2
  · exact h.fail _
  · exact h.fail _

theorem abstract (hp : D.allowed (.form .lambda)) {es : List Expr} (hes : ∀ e ∈ es, D.good e) :
    R Expr D.Fine (Form.abstract ev es) fun i => Form.abstract (ev' i) es := by
  unfold Form.abstract
  split
  · next first second =>
    split
    · exact h.applyHead hev (.within (.form .lambda)) ⟨hp, rfl⟩ hes
    · refine h.pure (Domain.fine_list fun e he => ?_)
      rcases List.mem_cons.1 he with rfl | he
      · exact D.constant _ (by simp)
      · exact hes e he
  · exact h.fail _

theorem applyWith (call : (Expr → Eval Expr) → Procedure → List Expr → Eval Expr)
    (hcall : ∀ p args, D.allowed p → (∀ e ∈ args, D.good e) →
      R Expr D.Fine (call ev p args) fun i => call (ev' i) p args)
    {es : List Expr} (hes : ∀ e ∈ es, D.good e) :
    R Expr D.Fine (Form.applyWith ev (call ev) es) fun i => Form.applyWith (ev' i) (call (ev' i)) es := by
  unfold Form.applyWith
  split
  · exact h.applyTo hev _ (hes _ (by simp))
  · next named argument _ =>
    refine h.bind (h.global? _) fun callee hcallee => ?_
    refine h.bind (hev argument (hes argument (by simp))) fun v hv => ?_
    unfold applyValue
    split
    · exact h.applyFunction hev _ _
    · next p => exact hcall p _ ((hcallee _ rfl).2 p rfl) (Domain.good_spread hv.1.good)
    · exact h.fail _
  · exact h.fail _

theorem choose {es : List Expr} (hes : ∀ e ∈ es, D.good e) :
    R Expr D.Fine (Form.choose ev es) fun i => Form.choose (ev' i) es := by
  unfold Form.choose
  split
  · exact h.fail _
  · exact h.clauses hev hes

theorem again {es : List Expr} (hes : ∀ e ∈ es, D.good e) :
    R Expr D.Fine (Form.again ev es) fun i => Form.again (ev' i) es := by
  unfold Form.again
  split
  · refine h.bind (h.argument hev (hes _ (by simp))) fun v hv => ?_
    exact h.mono (hev v hv.good) fun _ hw => hw.1
  · exact h.fail _

omit hev in
theorem announce {p : Procedure} (hp : D.allowed p) :
    R Unit (fun _ => True) p.announce fun _ => p.announce := by
  unfold Procedure.announce
  refine h.bind (h.invoked hp) fun _ _ => ?_
  split
  · next hneq => exact h.invoked ⟨hp, by rw [hneq]; rfl⟩
  · exact h.pure trivial

theorem performOr {links : Nat} {p : Procedure} (hp : D.allowed p) {es : List Expr}
    (hes : ∀ e ∈ es, D.good e)
    (happly : p = .form .apply → R Expr D.Fine (p.perform ev links es) fun i => p.perform (ev' i) links es) :
    R Expr D.Fine (p.perform ev links es) fun i => p.perform (ev' i) links es := by
  by_cases hne : p = .form .apply
  · exact happly hne
  · unfold Procedure.perform
    refine h.bind (h.announce hp) fun _ _ => ?_
    cases p with
    | primitive q => exact h.primitive hev q hes
    | form f => cases f with
      | quote => exact h.defer hes
      | binding => exact h.binding hev hp hes
      | lambda => exact h.abstract hev hp hes
      | apply => exact absurd rfl hne
      | cond => exact h.choose hev hes
      | eval => exact h.again hev hes
      | quit => exact h.quit hp
    | inert n => exact h.pure Domain.fine_nil

/-- A call respects the relation, however long a chain of calls it begins. -/
theorem perform (links : Nat) : ∀ (p : Procedure) (es : List Expr), D.allowed p →
    (∀ e ∈ es, D.good e) → R Expr D.Fine (p.perform ev links es) fun i => p.perform (ev' i) links es := by
  -- Only `apply` goes on to another call, and that has one link less.
  induction links with
  | zero =>
    intro p es hp hes
    refine h.performOr hev hp hes ?_
    rintro rfl
    exact h.bind (h.announce hp) fun _ _ => h.tooDeep
  | succ links ih =>
    intro p es hp hes
    refine h.performOr hev hp hes ?_
    rintro rfl
    refine h.bind (h.announce hp) fun _ _ => ?_
    exact h.applyWith hev (fun ev q fs => q.perform ev links fs) ih hes

/-! ### Expressions -/

theorem evaluateList {es : List Expr} (hes : ∀ e ∈ es, D.good e) :
    R Expr D.Fine (evaluateList ev es) fun i => SpliceLisp.evaluateList (ev' i) es := by
  cases es with
  | nil => exact h.pure (Domain.fine_list hes)
  | cons head tail =>
    have htail : ∀ e ∈ tail, D.good e := fun e he => hes e (by simp [he])
    simp only [SpliceLisp.evaluateList]
    split
    · exact h.applyHead hev .head rfl hes
    · refine h.bind (hev head (hes head (by simp))) fun v hv => ?_
      split
      · next p => exact h.perform hev _ p tail (hv.1.2 p rfl) htail
      · refine h.bind (h.evaluateEach hev hes) fun vs hvs => ?_
        have hresult : D.Fine (.list vs) := Domain.fine_list fun w hw => (hvs w hw).good
        split
        · exact h.mono (hev _ hresult.good) fun _ hw => hw.1
        · exact h.pure hresult

/-- **One step into an expression respects the relation** if the evaluation of
what it leads to does. -/
theorem dispatch {e : Expr} (he : D.good e) :
    R Expr (D.Returns e) (dispatch ev e) fun i => SpliceLisp.dispatch (ev' i) e := by
  have hfine : (∀ p, e ≠ .func p) → D.Fine e := Domain.fine_of_good he
  cases e with
  | num t => exact h.pure ⟨hfine (by simp), hfine (by simp)⟩
  | str t => exact h.pure ⟨hfine (by simp), hfine (by simp)⟩
  | sym n =>
    refine h.bind (h.global? n) fun b hb => ?_
    split
    · exact h.fail _
    · next items => exact h.mono (hev _ (hb _ rfl).good) fun v hv => ⟨hv.1, hfine (by simp)⟩
    · next v _ => exact h.pure ⟨hb v rfl, hfine (by simp)⟩
  | quote t => exact h.mono (h.readAndEvaluate hev t) fun v hv => ⟨hv, hfine (by simp)⟩
  | list es => exact h.mono (h.evaluateList hev (D.items he)) fun v hv => ⟨hv, hfine (by simp)⟩
  | func p => exact h.fail _

end Parts

end Congruence

end SpliceLisp
