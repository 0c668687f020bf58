/-
# What keeping values changes

`evaluateAfresh` is the evaluator without its cache. The two may differ, for a
value is kept under a text, and a deferred text loses its mark there:
`(cons '#t 1)` and `(cons #t 1)` have one text but not one value, and whichever
comes first in a turn gives its value to the other
(`evaluateAfresh_ne_evaluate`). Procedures are lost in the same way, as they all
show as `Fn<()>`.

Nothing else goes wrong. If the texts tell apart what gets a value in the run,
where a deferred text stands for what it reads as (`Unambiguous`), and no global
is bound meanwhile, the two evaluators agree on the value or the fault, whenever
both finish (`evaluateAfresh_eq_evaluate`). The texts do so unless a list with a
mark or a procedure inside gets a value (`unambiguous_of_readable`).

The invariant is that each kept value is one that evaluating afresh gives for an
expression of the run with that text (`Kept`). It is carried through the language
by the congruence `Agrees`, between one evaluator and the family of the others,
one for each depth.

Key definitions: `evaluateAfresh`, `Expr.meant`, `Unambiguous`, `Kept`, `Agrees`.
Key theorems: `unambiguous_of_readable`, `congruence_agrees`, `agrees_evaluate`, `evaluateAfresh_eq_evaluate`.
-/
import Mathlib
import SpliceLisp.Proofs.Congruence
import SpliceLisp.Proofs.RoundTrip

namespace SpliceLisp

open Eval

/-- The value of an expression, with evaluations nested at most `depth` deep,
where nothing is kept and nothing looked up. -/
def evaluateAfresh : Nat → Expr → Eval Expr
  | 0, _ => tooDeep
  | depth + 1, e => do
    note (.entered e)
    let value ← dispatch (fun e => evaluateAfresh depth e) e
    note (.returned e value)
    return value

/-- The expression that evaluation is about: a deferred text stands for what it
reads as. -/
def Expr.meant : Expr → Expr
  | .quote t => match read t with
    | .ok e => e
    | .error _ => .quote t
  | e => e

namespace Run

variable {α : Type}

def valued (r : Run α) : List Expr := r.events.filterMap fun
  | .returned e _ _ => some e
  | _ => none

def boundNames (r : Run α) : List Text := r.events.filterMap fun
  | .bound name _ => some name
  | _ => none

end Run

/-- Expressions with the same text are about the same expression. -/
def Unambiguous (es : List Expr) : Prop :=
  ∀ e ∈ es, ∀ f ∈ es, e.render = f.render → e.meant = f.meant

instance (es : List Expr) : Decidable (Unambiguous es) :=
  inferInstanceAs (Decidable (∀ e ∈ es, ∀ f ∈ es, e.render = f.render → e.meant = f.meant))

/-! ### Expressions that their texts tell apart -/

/-- A readable expression reads back as what it is about, unless it is a list
with something deferred inside. -/
theorem read_render_eq_meant {e : Expr} (he : e.Readable)
    (hlist : e.isList = true → e.holdsNoQuote = true) : Expr.read e.render = .ok e.meant := by
  rw [Expr.read_render he]
  cases he with
  | num _ | str _ | sym _ => rfl
  | quote hd => simp only [Expr.unquoted, Expr.meant, Expr.read_render hd]
  | list hes => exact congrArg Except.ok (Expr.unquoted_eq_self (.list hes) (hlist rfl))
  | func hp => exact hp.elim

/-- Only a list that holds a mark or a procedure can be taken for another. -/
theorem unambiguous_of_readable {es : List Expr} (h : ∀ e ∈ es, e.Readable)
    (hlist : ∀ e ∈ es, e.isList = true → e.holdsNoQuote = true) : Unambiguous es := by
  intro e he f hf htext
  have hread := read_render_eq_meant (h e he) (hlist e he)
  rw [htext, read_render_eq_meant (h f hf) (hlist f hf)] at hread
  exact (Except.ok.inj hread).symm

/-! ### Evaluations without a cache -/

/-- From any context with the globals `g` the evaluation has the outcome, if it
finishes, and leaves the globals as they are. -/
def Ends {α : Type} (g : Table) (m : Eval α) (r : Except Stop α) : Prop :=
  ∀ c : Context, c.globals = g → (m c).outcome ≠ .error .tooDeep →
    (m c).outcome = r ∧ (m c).context.globals = g

section Afresh

variable {α β : Type} {g : Table}

theorem Ends.pure (a : α) : Ends g (pure a) (.ok a) := fun _ hc _ => ⟨rfl, hc⟩

theorem Ends.note (event : Context → Event) : Ends g (note event) (.ok ()) := fun _ hc _ => ⟨rfl, hc⟩

theorem Ends.bind {m : Eval α} {r : Except Stop α} {f : α → Eval β} {s : α → Except Stop β}
    (hm : Ends g m r) (hf : ∀ a, r = .ok a → Ends g (f a) (s a)) :
    Ends g (m >>= f) (r >>= s) := by
  intro c hc hfin
  have hfirst : (m c).outcome ≠ .error .tooDeep := fun h => hfin (by rw [bind_apply, h])
  obtain ⟨ho, hg⟩ := hm c hc hfirst
  cases r with
  | ok a =>
    rw [bind_apply, ho] at hfin ⊢
    exact hf a rfl _ hg hfin
  | error s =>
    rw [bind_apply, ho]
    exact ⟨rfl, hg⟩

theorem ends_evaluateAfresh {e : Expr} {r : Except Stop Expr}
    (h : ∀ n, Ends g (dispatch (fun e => evaluateAfresh n e) e) r) (n : Nat) :
    Ends g (evaluateAfresh n e) r := by
  cases n with
  | zero => exact fun c _ hfin => absurd rfl hfin
  | succ n =>
    have hr : r = (.ok () : Except Stop Unit) >>= fun _ => r >>= fun v =>
        (.ok () : Except Stop Unit) >>= fun _ => Except.ok v := (bind_pure r).symm
    rw [hr]
    exact (Ends.note _).bind fun _ _ => (h n).bind fun v _ => (Ends.note _).bind fun _ _ => Ends.pure v

theorem dispatch_quote {ev : Expr → Eval Expr} {t : Text} {e : Expr} (h : Expr.read t = .ok e) :
    dispatch ev (.quote t) = ev e := by
  have hread : (Eval.ofExcept (Expr.read t) : Eval Expr) = Pure.pure e := by rw [h]; rfl
  rw [dispatch, hread, pure_bind]

/-- The evaluation of an expression is that of the expression it is about. -/
theorem ends_of_meant {e : Expr} {r : Except Stop Expr}
    (h : ∀ n, Ends g (evaluateAfresh n e.meant) r) (n : Nat) : Ends g (evaluateAfresh n e) r := by
  cases e with
  | quote t =>
    cases hread : Expr.read t with
    | ok u =>
      refine ends_evaluateAfresh (fun n => ?_) n
      rw [dispatch_quote hread]
      simpa only [Expr.meant, hread] using h n
    | error f => simpa only [Expr.meant, hread] using h n
  | _ => exact h n

theorem ends_meant {e : Expr} {r : Except Stop Expr}
    (h : ∀ n, Ends g (dispatch (fun e => evaluateAfresh n e) e) r) (n : Nat) :
    Ends g (evaluateAfresh n e.meant) r := by
  cases e with
  | quote t =>
    cases hread : Expr.read t with
    | ok u =>
      have hn := h n
      rw [dispatch_quote hread] at hn
      simpa only [Expr.meant, hread] using hn
    | error f => simpa only [Expr.meant, hread] using ends_evaluateAfresh h n
  | _ => exact ends_evaluateAfresh h n

end Afresh

/-! ### Evaluation with its cache -/

/-- The globals are `g`, and each kept value is what evaluating afresh gives for
what one of the expressions `es` is about, whose text it is kept under. -/
structure Kept (g : Table) (es : List Expr) (c : Context) : Prop where
  globals : c.globals = g
  cache : ∀ t v, c.cache.get? t = some v →
    ∃ e ∈ es, e.render = t ∧ ∀ n, Ends g (evaluateAfresh n e.meant) (.ok v)

/-- The part of a run `r` that has to be known: it finishes, binds no global and
gives values to some of the expressions `es`. -/
structure Observed {α : Type} (es : List Expr) (r : Run α) : Prop where
  finished : r.outcome ≠ .error .tooDeep
  unbound : r.boundNames = []
  valued : ∀ e ∈ r.valued, e ∈ es

/-- From every context with nothing wrong kept, the evaluation keeps nothing
wrong, and the others end as it does. -/
def Agrees (g : Table) (es : List Expr) : Relation Nat := fun _ V m m' =>
  ∀ c, Kept g es c → Observed es (m c) →
    Kept g es (m c).context ∧ (∀ a, (m c).outcome = .ok a → V a) ∧ ∀ n, Ends g (m' n) (m c).outcome

section Agreement

variable {g : Table} {es : List Expr}

theorem agrees_of_silent {α : Type} {V : α → Prop} {m : Eval α} {m' : Nat → Eval α}
    (hcontext : ∀ c, (m c).context = c) (hV : ∀ c a, Kept g es c → (m c).outcome = .ok a → V a)
    (hends : ∀ c, c.globals = g → ∀ n, Ends g (m' n) (m c).outcome) : Agrees g es α V m m' :=
  fun c hc _ => ⟨(hcontext c).symm ▸ hc, fun a ha => hV c a hc ha, hends c hc.globals⟩

section Parts

variable {α β : Type} {o : Except Stop β} {d : Context} {vs ws : List Event}

/-- Of a run that goes on with `ws` after `vs`, the parts up to there and from
there on. -/
theorem Observed.parts (h : Observed es (⟨o, d, vs ++ ws⟩ : Run β)) :
    (∀ (a : α) (c : Context), Observed es ⟨.ok a, c, vs⟩) ∧ Observed es (⟨o, d, ws⟩ : Run β) := by
  have hbound := h.unbound
  have hvalued := h.valued
  simp only [Run.boundNames, Run.valued, List.filterMap_append, List.append_eq_nil_iff,
    List.mem_append] at hbound hvalued
  exact ⟨fun a c => ⟨by simp, hbound.1, fun e he => hvalued e (Or.inl he)⟩,
    ⟨h.finished, hbound.2, fun e he => hvalued e (Or.inr he)⟩⟩

theorem Observed.tail {event : Event} (h : Observed es (⟨o, d, event :: vs⟩ : Run β)) :
    Observed es (⟨o, d, vs⟩ : Run β) :=
  (parts (α := Unit) (show Observed es (⟨o, d, [event] ++ vs⟩ : Run β) from h)).2

end Parts

theorem Kept.remember {c : Context} (hc : Kept g es c) {e v : Expr} (he : e ∈ es)
    (hv : ∀ n, Ends g (evaluateAfresh n e.meant) (.ok v)) : Kept g es (c.remember e.render v) :=
  ⟨hc.globals, forall_kept_remember hc.cache ⟨e, he, rfl, hv⟩⟩

theorem agrees_bind {α β : Type} {V : α → Prop} {W : β → Prop} {m : Eval α} {m' : Nat → Eval α}
    {f : α → Eval β} {f' : Nat → α → Eval β} (hm : Agrees g es α V m m')
    (hf : ∀ a, V a → Agrees g es β W (f a) fun n => f' n a) :
    Agrees g es β W (m >>= f) fun n => m' n >>= f' n := by
  intro c hc ho
  cases hrun : m c with
  | mk outcome d vs =>
  have hfirst := hm c hc
  rw [hrun] at hfirst
  cases outcome with
  | error s =>
    rw [bind_error hrun] at ho ⊢
    have hfinished : (.error s : Except Stop α) ≠ .error .tooDeep := fun h =>
      ho.finished (congrArg Except.error (Except.error.inj h))
    obtain ⟨hkept, -, hends⟩ := hfirst ⟨hfinished, ho.unbound, ho.valued⟩
    refine ⟨hkept, nofun, fun n => ?_⟩
    exact (hends n).bind (s := fun _ => .error s) fun a ha => nomatch ha
  | ok a =>
    rw [bind_ok hrun] at ho ⊢
    obtain ⟨ho1, ho2⟩ := ho.parts
    obtain ⟨hkept, hV, hends⟩ := hfirst (ho1 a d)
    obtain ⟨hkept2, hW, hends2⟩ := hf a (hV a rfl) d hkept ho2
    refine ⟨hkept2, hW, fun n => ?_⟩
    refine (hends n).bind (s := fun _ => (f a d).outcome) fun b hb => ?_
    obtain rfl := Except.ok.inj hb
    exact hends2 n

/-- The steps of the language respect agreement. -/
theorem congruence_agrees : Congruence Domain.everything (Agrees g es) where
  pure hV := agrees_of_silent (fun _ => rfl) (fun _ _ _ h => Except.ok.inj h ▸ hV)
    fun _ _ _ => Ends.pure _
  bind := agrees_bind
  fail _ := agrees_of_silent (fun _ => rfl) (fun _ _ _ h => nomatch h) fun _ _ _ _ hc _ => ⟨rfl, hc⟩
  quit _ := agrees_of_silent (fun _ => rfl) (fun _ _ _ h => nomatch h) fun _ _ _ _ hc _ => ⟨rfl, hc⟩
  tooDeep := fun _ _ ho => absurd rfl ho.finished
  invoked _ := agrees_of_silent (fun _ => rfl) (fun _ _ _ _ => trivial) fun _ _ _ => Ends.note _
  applied _ _ := agrees_of_silent (fun _ => rfl) (fun _ _ _ _ => trivial) fun _ _ _ => Ends.note _
  global? _ := agrees_of_silent (fun _ => rfl) (fun _ _ _ _ _ _ => Domain.fine_everything _)
    fun _ hc _ _ hd _ =>
      ⟨congrArg (fun t : Table => Except.ok (t.get? _)) (hd.trans hc.symm), hd⟩
  bindGlobal _ _ _ := fun _ _ ho => by cases ho.unbound

/-- Evaluating with the cache ends as evaluating afresh does, at any depths, if
the texts tell apart what gets a value. -/
theorem agrees_evaluate (hes : Unambiguous es) (depth : Nat) (e : Expr) :
    Agrees g es Expr (Domain.everything.Returns e) (evaluate depth e) fun n => evaluateAfresh n e := by
  induction depth generalizing e with
  | zero => exact fun _ _ ho => absurd rfl ho.finished
  | succ depth ih =>
    have hev : ∀ d, Domain.everything.good d →
        Agrees g es Expr (Domain.everything.Returns d) (evaluate depth d)
          fun n => evaluateAfresh n d :=
      fun d _ => ih d
    have hstep := congruence_agrees.dispatch hev (e := e) trivial
    intro c hc ho
    cases hget : c.cache.get? e.render with
    | some v =>
      -- What is found belongs to an expression that is about the same.
      rw [evaluate_of_kept hget] at ho ⊢
      obtain ⟨f, hf, htext, hvalue⟩ := hc.cache _ _ hget
      have he : e ∈ es := ho.valued e (by simp [Run.valued])
      refine ⟨hc, fun a _ => Domain.returns_everything e a, ends_of_meant ?_⟩
      rw [hes e he f hf htext.symm]
      exact hvalue
    | none =>
      cases hrun : dispatch (fun e => evaluate depth e) e c with
      | mk outcome d vs =>
      have hparts := hstep c hc
      rw [hrun] at hparts
      cases outcome with
      | error s =>
        rw [evaluate_of_error hget hrun] at ho ⊢
        obtain ⟨hkept, -, hends⟩ := hparts ho.tail
        exact ⟨hkept, nofun, ends_evaluateAfresh hends⟩
      | ok v =>
        rw [evaluate_of_ok hget hrun] at ho ⊢
        have he : e ∈ es := ho.valued e (by simp [Run.valued])
        obtain ⟨hkept, -, hends⟩ := hparts (ho.tail.parts.1 v d)
        exact ⟨hkept.remember he (ends_meant hends), fun a _ => Domain.returns_everything e a,
          ends_evaluateAfresh hends⟩

end Agreement

/-- **Keeping values changes nothing** where the texts tell apart what gets a
value in the run and no global is bound in it: from a context with nothing kept,
evaluating afresh ends with the same value or for the same reason, whenever both
finish, at any depths. -/
theorem evaluateAfresh_eq_evaluate {c : Context} (hcache : c.cache = ∅) {e : Expr} {depth n : Nat}
    (hunbound : (evaluate depth e c).boundNames = [])
    (htell : Unambiguous (evaluate depth e c).valued)
    (hfin : (evaluate depth e c).outcome ≠ .error .tooDeep)
    (hfresh : (evaluateAfresh n e c).outcome ≠ .error .tooDeep) :
    (evaluateAfresh n e c).outcome = (evaluate depth e c).outcome := by
  have hkept : Kept c.globals (evaluate depth e c).valued c :=
    ⟨rfl, fun t v hv => by rw [hcache] at hv; cases hv⟩
  have hagrees := agrees_evaluate htell depth e c hkept ⟨hfin, hunbound, fun _ h => h⟩
  exact (hagrees.2.2 n c rfl hfresh).1

/-- A function applied twice to the same argument, and the text of a list that
is also evaluated as it stands. -/
theorem evaluateAfresh_eq_evaluate_startup :
    let e : Expr := .list [.sym "cons", .list [.sym "eval", .quote "(+ 1 2)"],
      .list [.sym "+", .num "1", .num "2"],
      .list [.list [.sym "lambda", .list [.sym "x"], .list [.sym "*", .sym "x", .sym "x"]],
        .list [.list [.sym "+", .num "1", .num "2"]]]]
    let c := Context.startup
    (c.cache = ∅ ∧ (evaluate 9 e c).boundNames = [] ∧ Unambiguous (evaluate 9 e c).valued ∧
      (evaluate 9 e c).outcome ≠ .error .tooDeep ∧ (evaluateAfresh 8 e c).outcome ≠ .error .tooDeep) ∧
    (evaluateAfresh 8 e c).outcome = .ok (.list [.num "3", .num "3", .num "9"]) := by
  intro e c
  have hunbound : (evaluate 9 e c).boundNames = [] := by decide +kernel
  have htell : Unambiguous (evaluate 9 e c).valued := by decide +kernel
  have hfin : (evaluate 9 e c).outcome ≠ .error .tooDeep := by decide +kernel
  have hfresh : (evaluateAfresh 8 e c).outcome ≠ .error .tooDeep := by decide +kernel
  refine ⟨⟨rfl, hunbound, htell, hfin, hfresh⟩, ?_⟩
  refine (evaluateAfresh_eq_evaluate rfl hunbound htell hfin hfresh).trans ?_
  decide +kernel

/-- In a new session, a list takes the value of another that differs from it by
a mark only, and a function that of another that differs by what its procedures
are. Neither run binds a global. -/
theorem evaluateAfresh_ne_evaluate :
    let marks : Expr := .list [.sym "eq", .list [.sym "cons", .quote "#t", .num "1"],
      .list [.sym "cons", .sym "#t", .num "1"]]
    let procedures : Expr := .list [.sym "cons",
      .list [.sym "eval", .list [.sym "cons", .quote "lambda", .sym "+", .sym "-"]],
      .list [.sym "eval", .list [.sym "cons", .quote "lambda", .sym "-", .sym "+"]]]
    let c := Context.startup
    c.cache = ∅ ∧ marks.Produced ∧ procedures.Produced ∧
    ((evaluate 9 marks c).boundNames = [] ∧ (evaluate 9 marks c).outcome = .ok .yes ∧
      (evaluateAfresh 9 marks c).outcome = .ok .no) ∧
    ((evaluate 9 procedures c).boundNames = [] ∧
      (evaluate 9 procedures c).outcome ≠ .error .tooDeep ∧
      (evaluateAfresh 9 procedures c).outcome ≠ .error .tooDeep ∧
      (evaluate 9 procedures c).outcome ≠ (evaluateAfresh 9 procedures c).outcome) := by
  intro marks procedures c
  have hmarks : marks.Produced :=
    ⟨"(eq (cons '#t 1) (cons #t 1))".toList, Or.inl (by decide +kernel)⟩
  have hprocedures : procedures.Produced :=
    ⟨"(cons (eval (cons 'lambda + -)) (eval (cons 'lambda - +)))".toList,
      Or.inl (by decide +kernel)⟩
  refine ⟨rfl, hmarks, hprocedures, ⟨?_, ?_, ?_⟩, ?_, ?_, ?_, ?_⟩ <;> decide +kernel

end SpliceLisp
