/-
# What may be kept without being noticed

Of some texts the value is known beforehand: whichever expression with that text
is evaluated, and whatever else is kept, the value is the same. Whether such a
value is kept already then makes no difference to what comes after, and the
texts can be left out when two contexts are compared. Contexts that bind the
same names to the same values and keep the same values under all other texts are
`Facts.Alike`.

From contexts that are alike the evaluations of one expression have the same
outcome and lead to contexts that are alike, if the first finishes, however deep
it goes and wherever the second has to be nested deeper, since it does not find
what the first does (`Facts.Sound.simulates_evaluate`). What the facts are is
left open here. They are `Sound` when an expression of a known text does have the
known value.

Key definitions: `Facts`, `Facts.Alike`, `Facts.Yields`, `Facts.Sound`,
`Facts.Simulates`.
Key theorems: `Facts.congruence_simulates`, `Facts.Sound.simulates_evaluate`.
-/
import Mathlib
import SpliceLisp.Proofs.Depth
import SpliceLisp.Proofs.WellFormed

namespace SpliceLisp

open Eval

/-- What is known of evaluations beforehand: what some names are bound to throughout,
the value that an expression of a text has whenever it is evaluated, and which
expressions may be evaluated. -/
structure Facts where
  binding : Text → Expr → Prop
  value : Text → Expr → Prop
  admitted : Expr → Prop

namespace Facts

variable (F : Facts)

/-- The names are bound as they should be, and what is kept under a text of
which the value is known is that value. -/
structure HoldIn (c : Context) : Prop where
  wellFormed : c.WellFormed
  bound : ∀ {name : Text} {v : Expr}, F.binding name v → c.globals.get? name = some v
  kept : ∀ {text : Text} {v w : Expr}, F.value text v → c.cache.get? text = some w → w = v

/-- The facts hold in both contexts, which have the same bindings and keep the
same values, except under texts of which the value is known. -/
structure Alike (c d : Context) : Prop where
  left : F.HoldIn c
  right : F.HoldIn d
  globals : c.globals = d.globals
  kept : ∀ {text : Text}, (∀ v, ¬F.value text v) → c.cache.get? text = d.cache.get? text

/-- Whether what happens agrees with the facts. -/
def Permits : Event → Prop
  | .entered e _ => F.admitted e
  | .bound name v => ∀ w, F.binding name w → v = w
  | _ => True

/-- The run finishes, and what happens in it agrees with the facts. -/
structure Respected {α : Type} (r : Run α) : Prop where
  finished : r.outcome ≠ .error .tooDeep
  events : ∀ event ∈ r.events, F.Permits event

/-- The evaluations come to the value, and to a context that is alike. -/
def Yields {α : Type} (c : Context) (m : Nat → Eval α) (a : α) : Prop :=
  ∃ r, Settles (fun k => m k c) r ∧ r.outcome = .ok a ∧ F.Alike c r.context

/-- A text has at most one known value, which is well formed. -/
structure Consistent : Prop where
  unique : ∀ {text : Text} {v w : Expr}, F.value text v → F.value text w → v = w
  wellFormed : ∀ {text : Text} {v : Expr}, F.value text v → v.WellFormed

/-- An expression of a known text does have the known value, and that leads to a
context that is alike. -/
structure Sound : Prop extends F.Consistent where
  yields : ∀ {e v : Expr} {c : Context}, e.WellFormed → F.admitted e → F.value e.render v →
    F.HoldIn c → F.Yields c (fun k => evaluate k e) v

/-- From contexts that are alike, what the others come to has the outcome of the
run, if that respects the facts, and leads to a context like that of the run. -/
def Simulates : Relation Nat := fun _ V m m' =>
  ∀ c d, F.Alike c d → F.Respected (m c) → (∀ a, (m c).outcome = .ok a → V a) ∧
    ∃ r, Settles (fun k => m' k d) r ∧ r.outcome = (m c).outcome ∧ F.Alike (m c).context r.context

variable {F}

/-! ### Contexts that are alike -/

section Contexts

variable {c d b : Context}

theorem HoldIn.alike (h : F.HoldIn c) : F.Alike c c := ⟨h, h, rfl, fun _ => rfl⟩

theorem Alike.symm (h : F.Alike c d) : F.Alike d c :=
  ⟨h.right, h.left, h.globals.symm, fun hn => (h.kept hn).symm⟩

theorem Alike.trans (h : F.Alike b c) (h' : F.Alike c d) : F.Alike b d :=
  ⟨h.left, h'.right, h.globals.trans h'.globals, fun hn => (h.kept hn).trans (h'.kept hn)⟩

theorem holdIn_of_cache (hw : c.WellFormed) (hcache : c.cache = ∅)
    (hbound : ∀ {name v}, F.binding name v → c.globals.get? name = some v) : F.HoldIn c :=
  ⟨hw, hbound, fun _ hget => by rw [hcache] at hget; cases hget⟩

theorem HoldIn.remember (h : F.HoldIn c) {text : Text} {v : Expr} (hv : v.WellFormed)
    (hknown : ∀ w, F.value text w → v = w) : F.HoldIn (c.remember text v) := by
  have hnew : ∀ t w, (c.remember text v).cache.get? t = some w → ∀ u, F.value t u → w = u :=
    forall_kept_remember (fun _ _ hget _ hu => h.kept hu hget) hknown
  exact ⟨h.wellFormed.remember hv, h.bound, fun hu hget => hnew _ _ hget _ hu⟩

theorem HoldIn.bind (h : F.HoldIn c) {name : Text} {v : Expr} (hname : (Expr.sym name).WellFormed)
    (hv : v.WellFormed) (hbound : ∀ w, F.binding name w → v = w) : F.HoldIn (c.bind name v) := by
  refine ⟨h.wellFormed.bind hname hv, fun {n w} hw => ?_, h.kept⟩
  by_cases hn : n = name
  · subst hn
    rw [Context.bind, Table.get?_insert_self, hbound w hw]
  · rw [Context.bind, Table.get?_insert_of_ne _ _ hn]
    exact h.bound hw

/-- A value of which it is known makes no difference when it is kept. -/
theorem HoldIn.alike_remember (hF : F.Consistent) (h : F.HoldIn c) {text : Text} {v : Expr}
    (hv : F.value text v) : F.Alike c (c.remember text v) := by
  refine ⟨h, h.remember (hF.wellFormed hv) fun _ hu => hF.unique hv hu, rfl, fun {t} hn => ?_⟩
  have hne : t ≠ text := fun ht => hn v (ht ▸ hv)
  rw [Context.remember, Table.get?_insert_of_ne _ _ hne]

theorem Alike.remember (h : F.Alike c d) {text : Text} {v : Expr} (hn : ∀ w, ¬F.value text w)
    (hv : v.WellFormed) : F.Alike (c.remember text v) (d.remember text v) := by
  have hold : ∀ {b : Context}, F.HoldIn b → F.HoldIn (b.remember text v) := fun hb =>
    hb.remember hv fun w hw => absurd hw (hn w)
  refine ⟨hold h.left, hold h.right, h.globals, fun {t} ht => ?_⟩
  by_cases heq : t = text
  · subst heq
    simp only [Context.remember, Table.get?_insert_self]
  · simp only [Context.remember, Table.get?_insert_of_ne _ _ heq]
    exact h.kept ht

theorem Alike.bind (h : F.Alike c d) {name : Text} {v : Expr} (hname : (Expr.sym name).WellFormed)
    (hv : v.WellFormed) (hbound : ∀ w, F.binding name w → v = w) :
    F.Alike (c.bind name v) (d.bind name v) :=
  ⟨h.left.bind hname hv hbound, h.right.bind hname hv hbound,
    congrArg (fun t : Table => t.insert name v) h.globals, h.kept⟩

end Contexts

/-! ### Evaluations with a known value -/

section Yielding

variable {α β : Type} {c : Context}

theorem Yields.reaches {m : Nat → Eval α} {a : α} (h : F.Yields c m a) :
    Reaches c m (.ok a) (F.Alike c) := h

theorem Yields.pure (h : F.HoldIn c) (a : α) : F.Yields c (fun _ => pure a) a :=
  Reaches.pure h.alike a

theorem Yields.bind {m : Nat → Eval α} {f : Nat → α → Eval β} {a : α} {b : β}
    (hm : F.Yields c m a) (hf : ∀ d, F.Alike c d → F.Yields d (fun k => f k a) b) :
    F.Yields c (fun k => m k >>= f k) b :=
  hm.reaches.bind fun d hd => (hf d hd).reaches.mono fun _ => hd.trans

theorem Yields.global (h : F.HoldIn c) {name : Text} {v : Expr} (hv : F.binding name v) :
    F.Yields c (fun _ => global? name) (some v) :=
  h.bound hv ▸ Reaches.global? h.alike name

/-- What one step into an expression of a known text yields is the value, which
is found if it is kept already. -/
theorem Yields.evaluate (hF : F.Consistent) (h : F.HoldIn c) {e v : Expr} (hv : F.value e.render v)
    (hstep : F.Yields c (fun k => dispatch (fun d => SpliceLisp.evaluate k d) e) v) :
    F.Yields c (fun k => SpliceLisp.evaluate k e) v := by
  cases hget : c.cache.get? e.render with
  | some w =>
    obtain rfl := h.kept hv hget
    exact ⟨_, settles_of_round ⟨0, fun _ _ => round_of_kept hget⟩, rfl, h.alike⟩
  | none =>
    exact hstep.reaches.evaluate hget fun d hd => hd.trans (hd.right.alike_remember hF hv)

/-- An evaluation that finishes has the value that such evaluations yield. -/
theorem Yields.eq_evaluate {e v : Expr} (h : F.Yields c (fun k => SpliceLisp.evaluate k e) v)
    {n : Nat} (hfin : (SpliceLisp.evaluate n e c).outcome ≠ .error .tooDeep) :
    (SpliceLisp.evaluate n e c).outcome = .ok v ∧
      F.Alike c (SpliceLisp.evaluate n e c).context := by
  obtain ⟨r, hr, ho, hd⟩ := h
  rw [hr.eq_evaluate hfin]
  exact ⟨ho, hd⟩

end Yielding

/-! ### Runs from contexts that are alike -/

section Runs

variable {α β : Type} {o : Except Stop β} {d : Context} {vs ws : List Event}

/-- Of a run that goes on with `ws` after `vs`, the parts up to there and from
there on. -/
theorem Respected.parts (h : F.Respected (⟨o, d, vs ++ ws⟩ : Run β)) :
    (∀ {p : Except Stop α} {c : Context}, p ≠ .error .tooDeep → F.Respected ⟨p, c, vs⟩) ∧
      F.Respected (⟨o, d, ws⟩ : Run β) :=
  ⟨fun hp => ⟨hp, fun event he => h.events event (List.mem_append_left ws he)⟩,
    h.finished, fun event he => h.events event (List.mem_append_right vs he)⟩

theorem Respected.tail {event : Event} (h : F.Respected (⟨o, d, event :: vs⟩ : Run β)) :
    F.Respected (⟨o, d, vs⟩ : Run β) :=
  ⟨h.finished, fun ev he => h.events ev (List.mem_cons_of_mem event he)⟩

theorem simulates_of_silent {V : α → Prop} {m : Eval α}
    (hcontext : ∀ c, (m c).context = c) (hV : ∀ c a, F.HoldIn c → (m c).outcome = .ok a → V a)
    (hsame : ∀ c d : Context, c.globals = d.globals → (m d).outcome = (m c).outcome) :
    F.Simulates α V m fun _ => m := by
  intro c d hcd _
  refine ⟨fun a => hV c a hcd.left, m d, Settles.const _, hsame c d hcd.globals, ?_⟩
  rwa [hcontext c, hcontext d]

theorem simulates_bind {V : α → Prop} {W : β → Prop} {m : Eval α} {m' : Nat → Eval α}
    {f : α → Eval β} {f' : Nat → α → Eval β} (hm : F.Simulates α V m m')
    (hf : ∀ a, V a → F.Simulates β W (f a) fun k => f' k a) :
    F.Simulates β W (m >>= f) fun k => m' k >>= f' k := by
  intro c d hcd ho
  cases hrun : m c with
  | mk outcome c1 es =>
  have hfirst := hm c d hcd
  rw [hrun] at hfirst
  cases outcome with
  | error s =>
    rw [bind_error hrun] at ho ⊢
    have hs : (.error s : Except Stop α) ≠ .error .tooDeep := fun h =>
      ho.finished (congrArg Except.error (Except.error.inj h))
    obtain ⟨-, ⟨_, d1, fs⟩, hr, rfl, halike⟩ := hfirst ⟨hs, ho.events⟩
    exact ⟨nofun, _, hr.bind_error, rfl, halike⟩
  | ok a =>
    rw [bind_ok hrun] at ho ⊢
    obtain ⟨ho1, ho2⟩ := ho.parts (α := α)
    obtain ⟨hV, ⟨_, d1, fs⟩, hr, rfl, halike⟩ := hfirst (ho1 nofun)
    obtain ⟨hW, s, hs, hso, halike2⟩ := hf a (hV a rfl) c1 d1 halike ho2
    exact ⟨hW, _, hr.bind hs, hso, halike2⟩

/-- The steps of the language do not tell apart contexts that are alike. -/
theorem congruence_simulates : Congruence Domain.wellFormed F.Simulates where
  pure hV := simulates_of_silent (fun _ => rfl) (fun _ _ _ h => Except.ok.inj h ▸ hV)
    fun _ _ _ => rfl
  bind := simulates_bind
  fail _ := simulates_of_silent (fun _ => rfl) (fun _ _ _ h => nomatch h) fun _ _ _ => rfl
  quit _ := simulates_of_silent (fun _ => rfl) (fun _ _ _ h => nomatch h) fun _ _ _ => rfl
  tooDeep := fun _ _ _ ho => absurd rfl ho.finished
  invoked _ := simulates_of_silent (fun _ => rfl) (fun _ _ _ _ => trivial) fun _ _ _ => rfl
  applied _ _ := simulates_of_silent (fun _ => rfl) (fun _ _ _ _ => trivial) fun _ _ _ => rfl
  global? name := simulates_of_silent (fun _ => rfl)
    (fun _ _ hc h _ hv =>
      Domain.fine_wellFormed (hc.wellFormed.global ((Except.ok.inj h).trans hv)))
    fun _ _ h => congrArg (fun t : Table => Except.ok (t.get? name)) h.symm
  bindGlobal {name v} _ hname hv := fun _ d hcd ho =>
    ⟨fun _ _ => trivial, bindGlobal name v d, Settles.const _, rfl,
      hcd.bind hname hv.good (ho.events (.bound name v) (List.mem_singleton.2 rfl))⟩

end Runs

/-- **What is known may be kept or not.** From contexts that are alike, an
expression comes to the outcome that it has at any depth at which it finishes,
and to a context like the one left there. -/
theorem Sound.simulates_evaluate (hF : F.Sound) (depth : Nat) (e : Expr) (he : e.WellFormed) :
    F.Simulates Expr (Domain.wellFormed.Returns e) (evaluate depth e) fun k => evaluate k e := by
  have hreturns : ∀ {v : Expr}, v.WellFormed → ∀ {d : Expr}, d.WellFormed →
      Domain.wellFormed.Returns d v := fun hv _ hd =>
    ⟨Domain.fine_wellFormed hv, Domain.fine_wellFormed hd⟩
  induction depth generalizing e with
  | zero => exact fun _ _ _ ho => absurd rfl ho.finished
  | succ depth ih =>
    have hstep := congruence_simulates.dispatch (fun d hd => ih d hd) (e := e) he
    intro c d hcd ho
    by_cases hknown : ∃ v, F.value e.render v
    · -- Both evaluations have the known value, whether it is kept or not.
      obtain ⟨v, hv⟩ := hknown
      have hentered : F.admitted e := by
        refine ho.events (.entered e c) ?_
        cases hget : c.cache.get? e.render with
        | some w => rw [evaluate_of_kept hget]; simp
        | none =>
          cases hrun : dispatch (fun e => evaluate depth e) e c with
          | mk outcome d es =>
          cases outcome with
          | ok w => rw [evaluate_of_ok hget hrun]; simp
          | error s => rw [evaluate_of_error hget hrun]; simp
      obtain ⟨houtcome, hc⟩ := (hF.yields he hentered hv hcd.left).eq_evaluate ho.finished
      obtain ⟨r, hr, hro, hd⟩ := hF.yields he hentered hv hcd.right
      rw [houtcome]
      refine ⟨fun a ha => ?_, r, hr, hro, (hc.symm.trans hcd).trans hd⟩
      exact Except.ok.inj ha ▸ hreturns (hF.wellFormed hv) he
    · have hunknown : ∀ v, ¬F.value e.render v := fun v hv => hknown ⟨v, hv⟩
      have hboth := hcd.kept hunknown
      cases hget : c.cache.get? e.render with
      | some v =>
        rw [hget] at hboth
        rw [evaluate_of_kept hget]
        refine ⟨fun a ha => ?_, _, settles_of_round ⟨0, fun _ _ => round_of_kept hboth.symm⟩,
          rfl, hcd⟩
        exact Except.ok.inj ha ▸ hreturns (hcd.left.wellFormed.kept hget) he
      | none =>
        rw [hget] at hboth
        cases hrun : dispatch (fun e => evaluate depth e) e c with
        | mk outcome c1 es =>
        have hparts := hstep c d hcd
        rw [hrun] at hparts
        cases outcome with
        | ok v =>
          rw [evaluate_of_ok hget hrun] at ho ⊢
          obtain ⟨hV, ⟨_, d1, fs⟩, ⟨N, hN⟩, rfl, halike⟩ := hparts (ho.tail.parts.1 nofun)
          have hv := hV v rfl
          exact ⟨fun a ha => Except.ok.inj ha ▸ hv, _,
            settles_of_round ⟨N, fun k hk => round_of_ok hboth.symm (hN k hk)⟩, rfl,
            halike.remember hunknown hv.1.good⟩
        | error s =>
          rw [evaluate_of_error hget hrun] at ho ⊢
          obtain ⟨-, ⟨_, d1, fs⟩, ⟨N, hN⟩, rfl, halike⟩ := hparts ho.tail
          exact ⟨nofun, _,
            settles_of_round ⟨N, fun k hk => round_of_error hboth.symm (hN k hk)⟩, rfl, halike⟩

/-- The facts hold after the evaluation of an expression for which nothing is kept, if
they hold after the step into it: what is kept then is the value, if that is known. -/
theorem Sound.reaches_evaluate (hF : F.Sound) {c : Context} (hc : F.HoldIn c) {e v : Expr}
    (he : e.WellFormed) (hadmitted : F.admitted e) (hv : v.WellFormed)
    (hnone : c.cache.get? e.render = none)
    (h : Reaches c (fun k => dispatch (fun d => evaluate k d) e) (.ok v) F.HoldIn) :
    Reaches c (fun k => evaluate k e) (.ok v) F.HoldIn := by
  refine h.evaluate hnone fun d hd => hd.remember hv fun w hw => ?_
  have hcomes : Reaches c (fun k => evaluate k e) (.ok v) fun _ => True :=
    h.evaluate hnone fun _ _ => trivial
  exact Except.ok.inj (hcomes.unique (hF.yields he hadmitted hw hc).reaches)

end Facts

end SpliceLisp
