/-
# Procedures out of reach

A procedure is called because it is the value of the head of a list, or because
`apply` finds it under a name. A list can hold procedures too, but no evaluation
takes one out again: each item that is taken out is evaluated, and a procedure is no
expression that has a value. So once no global name is bound to a procedure itself,
it is out of reach for good (`out_of_reach_of_unbound`), and with `let` out of reach
the globals stay as they are for the rest of the session.

Two procedures are also called without being looked up. A list that a function heads,
there or under `lambda`, is handed to `apply`, and `neq` asks `eq`, whatever these
names are bound to (`invoked_though_unbound`). For all others out of reach is never
called.

The kept values could undo this, since all procedures have the same text: with a
value under that text, a procedure in a list would have it. But nothing with that
text is evaluated with success (`Expr.render_ne_of_evaluable`), and therefore
nothing is ever kept there, which is part of the invariant (`Context.Lacks`).

`mod` and `%` are two procedures that do the same.

Key definitions: `Domain.without`, `Context.Lacks`, `Event.Lacks`.
Key theorems: `Expr.render_ne_of_evaluable`, `invariant_lacks`,
`out_of_reach_of_unbound`.
-/
import Mathlib
import SpliceLisp.Proofs.Isolation
import SpliceLisp.Proofs.WellFormed

namespace SpliceLisp

open Eval

/-- What has the text of a procedure has no value. -/
theorem Expr.render_ne_of_evaluable {e : Expr} (hw : e.WellFormed) (he : e.Evaluable)
    (p : Procedure) : e.render ≠ (func p).render := by
  obtain ⟨ev, c, v, hv⟩ := he
  intro htext
  have htext : e.render = "Fn<()>".toList := htext
  cases hw with
  | num ht =>
    have hno : Lexeme.Kind.admits .number "Fn<()>".toList = false := by decide +kernel
    rw [← htext, render, ht] at hno
    cases hno
  | str ht =>
    have hno : Lexeme.Kind.admits .string "Fn<()>".toList = false := by decide +kernel
    rw [← htext, render, ht] at hno
    cases hno
  | sym hn =>
    have hno : (Lexeme.Kind.admits .symbol "Fn<()>".toList ||
        Lexeme.Kind.admits .special "Fn<()>".toList) = false := by decide +kernel
    rw [← htext, render, hn] at hno
    cases hno
  | quote _ =>
    have hread : Expr.read "Fn<()>".toList = .error (.unexpectedChar '<' 2) := by decide +kernel
    rw [render] at htext
    rw [htext, dispatch, hread] at hv
    cases hv
  | @list es _ =>
    cases es with
    | nil => cases htext
    | cons d ds => cases htext
  | func _ => cases hv

/-- The domain in which one procedure less may be a value. -/
def Domain.without (D : Domain) (p : Procedure) : Domain :=
  { D with allowed := fun q => D.allowed q ∧ q ≠ p }

section Lacks

variable {p : Procedure}

theorem Domain.fine_without {v : Expr} (h : v.WellFormed) (hv : v ≠ .func p) :
    (Domain.wellFormed.without p).Fine v :=
  ⟨h, fun q hq => ⟨(fine_wellFormed h).2 q hq, fun hqp => hv (hqp ▸ hq)⟩⟩

theorem Domain.ne_of_fine_without {D : Domain} {v : Expr} (h : (D.without p).Fine v) :
    v ≠ .func p :=
  fun hv => (h.2 p hv).2 rfl

/-- No name leads to the procedure, and nothing is kept that could. -/
structure Context.Lacks (p : Procedure) (c : Context) : Prop where
  wellFormed : c.WellFormed
  global : ∀ {name : Text} {v : Expr}, c.globals.get? name = some v → v ≠ .func p
  kept : ∀ text v, c.cache.get? text = some v → v ≠ .func p ∧ text ≠ (Expr.func p).render

/-- What happens neither calls the procedure by its value nor brings it within reach,
and does not bind anything if it is `let` that is out of reach. -/
def Event.Lacks (p : Procedure) : Event → Prop
  | .invoked q route => (Domain.wellFormed.without p).Calls q route
  | .returned _ v _ => v ≠ .func p
  | .bound _ v => v ≠ .func p ∧ p ≠ .form .binding
  | .entered _ _ | .applied _ _ | .exhausted => True

/-- What is out of reach is called by two routes at most. -/
theorem route_of_lacks {route : Route} (h : Event.Lacks p (.invoked p route)) :
    (p = .form .apply ∧ (route = .head ∨ route = .within (.form .lambda))) ∨
      (p = .primitive .eq ∧ route = .within (.primitive .neq)) := by
  cases route with
  | value => exact absurd rfl h.2
  | head => exact Or.inl ⟨h, Or.inl rfl⟩
  | within q =>
    rcases Procedure.delegate?_cases h.2 with ⟨rfl, hp⟩ | ⟨rfl, hp⟩
    · exact Or.inl ⟨hp, Or.inr rfl⟩
    · exact Or.inr ⟨hp, rfl⟩

namespace Context.Lacks

variable {c : Context} (h : c.Lacks p)
include h

theorem bind {name : Text} {v : Expr} (hname : (Expr.sym name).WellFormed) (hv : v.WellFormed)
    (hne : v ≠ .func p) : (c.bind name v).Lacks p where
  wellFormed := h.wellFormed.bind hname hv
  global := by
    intro other w hw
    by_cases hother : other = name
    · subst hother
      rw [Context.bind, Table.get?_insert_self] at hw
      exact Option.some.inj hw ▸ hne
    · rw [Context.bind, Table.get?_insert_of_ne _ _ hother] at hw
      exact h.global hw
  kept := h.kept

theorem remember {e v : Expr} (hw : e.WellFormed) (he : e.Evaluable) (hv : v.WellFormed)
    (hne : v ≠ .func p) : (c.remember e.render v).Lacks p where
  wellFormed := h.wellFormed.remember hv
  global := h.global
  kept := forall_kept_remember h.kept ⟨hne, Expr.render_ne_of_evaluable hw he p⟩

theorem endTurn : c.endTurn.Lacks p where
  wellFormed := h.wellFormed.endTurn
  global := h.global
  kept := nofun

/-- What has something kept under its text is not the procedure. -/
theorem ne_of_kept {e v : Expr} (hv : c.cache.get? e.render = some v) : e ≠ .func p := by
  rintro rfl
  exact (h.kept _ _ hv).2 rfl

end Context.Lacks

/-- A procedure that is out of reach stays there. -/
theorem invariant_lacks (p : Procedure) :
    Invariant (Domain.wellFormed.without p) (Context.Lacks p) (Event.Lacks p) where
  global hc hv := Domain.fine_without (hc.wellFormed.global hv) (hc.global hv)
  kept hc he hv := ⟨Domain.fine_without (hc.wellFormed.kept hv) (hc.kept _ _ hv).1,
    Domain.fine_without he (hc.ne_of_kept hv)⟩
  bind hc hp hname hv := ⟨hc.bind hname hv.good (Domain.ne_of_fine_without hv),
    Domain.ne_of_fine_without hv, hp.2.symm⟩
  remember hc he hv := hc.remember hv.2.good he hv.1.good (Domain.ne_of_fine_without hv.1)
  entered _ _ := trivial
  returned _ hv := Domain.ne_of_fine_without hv.1
  invoked hq := hq
  applied _ _ := trivial
  exhausted := trivial
  endTurn hc := hc.endTurn

theorem globals_afterTurns_of_lacks (depth : Nat) : ∀ (sources : List Text) {c : Context},
    c.Lacks (.form .binding) → (c.afterTurns depth sources).globals = c.globals
  | [], _, _ => rfl
  | source :: sources, c, hc => by
    obtain ⟨hnext, hevents, -⟩ := (invariant_lacks _).turn depth source hc
    have hnone : (turn depth source c).bindings = [] := by
      refine List.filterMap_eq_nil_iff.2 fun event hevent => ?_
      cases event with
      | bound name v => exact absurd rfl (hevents _ hevent).2
      | _ => rfl
    have hturn : (turn depth source c).context.globals = c.globals := by
      rw [globals_turn, hnone]
      rfl
    exact (globals_afterTurns_of_lacks depth sources hnext).trans hturn

end Lacks

/-- **A procedure that no name is bound to is out of reach.** In a session that begins
with well-formed expressions, such as a new one, let no global name be bound to the
procedure `p` itself after some turns. Then, whatever the later turns, this is true of
the turn after them.

It is called by no route but two: `apply` for a list that a function heads, and `eq`
by `neq`. It calls nothing itself, no evaluation has it for its value, no name is
bound to it, and no name is bound to it afterwards. If `p` is `let`, no name is bound
to anything and the globals are still what they were; if it is `quit`, the session is
not asked to end. -/
theorem out_of_reach_of_unbound (depth : Nat) {start : Context} (hstart : start.WellFormed)
    (hcache : start.cache = ∅) (earlier : List Text) (p : Procedure)
    (hp : ∀ name, (start.afterTurns depth earlier).globals.get? name ≠ some (.func p))
    (later : List Text) (source : Text) :
    let run := turn depth source (start.afterTurns depth (earlier ++ later))
    (∀ route, .invoked p route ∈ run.events →
      (p = .form .apply ∧ (route = .head ∨ route = .within (.form .lambda))) ∨
        (p = .primitive .eq ∧ route = .within (.primitive .neq))) ∧
    (∀ q, .invoked q (.within p) ∉ run.events) ∧
    (∀ e c, .returned e (.func p) c ∉ run.events) ∧
    (∀ name, .bound name (.func p) ∉ run.events) ∧
    (∀ name, run.context.globals.get? name ≠ some (.func p)) ∧
    (p = .form .binding → (∀ name v, .bound name v ∉ run.events) ∧
      run.context.globals = (start.afterTurns depth earlier).globals) ∧
    (p = .form .quit → run.outcome ≠ .error .quit) := by
  intro run
  have hlacks : (start.afterTurns depth earlier).Lacks p :=
    { wellFormed := invariant_wellFormed.afterTurns depth earlier hstart
      global := fun hv he => hp _ (he ▸ hv)
      kept := by
        rw [Context.cache_afterTurns depth hcache]
        exact nofun }
  have hbefore := (invariant_lacks p).afterTurns depth later hlacks
  rw [← Context.afterTurns_append] at hbefore
  obtain ⟨hafter, hevents, hstops, -⟩ := (invariant_lacks p).turn depth source hbefore
  refine ⟨fun route h => route_of_lacks (hevents _ h), fun q h => (hevents _ h).1.2 rfl,
    fun e c h => hevents _ h rfl, fun name h => (hevents _ h).1 rfl,
    fun name h => hafter.global h rfl, ?_, ?_⟩
  · rintro rfl
    refine ⟨fun name v h => (hevents _ h).2 rfl, ?_⟩
    calc run.context.globals = (start.afterTurns depth (earlier ++ later)).globals :=
        globals_afterTurns_of_lacks depth [source] hbefore
      _ = (start.afterTurns depth earlier).globals := by
        rw [Context.afterTurns_append]
        exact globals_afterTurns_of_lacks depth later hlacks
  · rintro rfl h
    exact (hstops _ h).2 rfl

/-- A session that put `let` into a list before it bound the name to a number, and
tries to call what the list holds. -/
theorem out_of_reach_of_unbound_listed :
    let earlier : List Text := ["(let kept (cons 1 let quit))", "(let let 2)"]
    let later : List Text := ["(apply kept (cons 1 2))"]
    let before := Context.startup.afterTurns depthLimit earlier
    let p : Procedure := .form .binding
    let run := turn depthLimit "((car (cdr kept)) z 2)"
      (Context.startup.afterTurns depthLimit (earlier ++ later))
    (Context.startup.WellFormed ∧ Context.startup.cache = ∅ ∧
      ∀ name, before.globals.get? name ≠ some (.func p)) ∧
    before.globals.get? "kept" = some (.list [.num "1", .func p, .func (.form .quit)]) ∧
    (∀ route, .invoked p route ∉ run.events) ∧ run.context.globals = before.globals := by
  intro earlier later before p run
  have hstart : Context.startup.WellFormed := Context.wellFormed_startup
  have hcache : Context.startup.cache = ∅ := Context.cache_startup
  have hall : ∀ q ∈ before.globals.entries, q.2 ≠ .func p := by decide +kernel
  have hp : ∀ name, before.globals.get? name ≠ some (.func p) := fun name h =>
    hall _ (Table.mem_entries_of_get? h) rfl
  have hkept :
      before.globals.get? "kept" = some (.list [.num "1", .func p, .func (.form .quit)]) := by
    decide +kernel
  obtain ⟨hroute, -, -, -, -, hbinding, -⟩ := out_of_reach_of_unbound depthLimit hstart hcache
    earlier p hp later "((car (cdr kept)) z 2)"
  refine ⟨⟨hstart, hcache, hp⟩, hkept, fun route h => ?_, (hbinding rfl).2⟩
  rcases hroute route h with ⟨happly, -⟩ | ⟨heq, -⟩
  · exact absurd happly (by decide)
  · exact absurd heq (by decide)

/-- The calls of a run, each with its route. -/
def Run.invocations {α : Type} (r : Run α) : List (Procedure × Route) := r.events.filterMap fun
  | .invoked p route => some (p, route)
  | _ => none

theorem Run.invoked_of_mem_invocations {α : Type} {r : Run α} {p : Procedure} {route : Route}
    (h : (p, route) ∈ r.invocations) : .invoked p route ∈ r.events := by
  obtain ⟨event, hevent, hcall⟩ := List.mem_filterMap.1 h
  cases event with
  | invoked q route' =>
    cases hcall
    exact hevent
  | _ => cases hcall

/-- A session that bound the names of `apply` and `eq` to a number calls both, by their
three routes. -/
theorem invoked_though_unbound :
    let before := Context.startup.afterTurns depthLimit ["(let apply 1)", "(let eq 1)"]
    let apply : Procedure := .form .apply
    let eq : Procedure := .primitive .eq
    let headed := turn depthLimit "((lambda (x) (+ x 1)) 2)" before
    let under := turn depthLimit "(lambda (lambda (x) (+ x 1)) 2)" before
    let differ := turn depthLimit "(neq 1 2)" before
    (∀ name, before.globals.get? name ≠ some (.func apply) ∧
      before.globals.get? name ≠ some (.func eq)) ∧
    (.invoked apply .head ∈ headed.events ∧ headed.outcome = .ok (.num "3")) ∧
    (.invoked apply (.within (.form .lambda)) ∈ under.events ∧ under.outcome = .ok (.num "3")) ∧
    .invoked eq (.within (.primitive .neq)) ∈ differ.events ∧ differ.outcome = .ok .yes := by
  intro before apply eq headed under differ
  have hall : ∀ q ∈ before.globals.entries, q.2 ≠ .func apply ∧ q.2 ≠ .func eq := by
    decide +kernel
  have hunbound : ∀ name, before.globals.get? name ≠ some (.func apply) ∧
      before.globals.get? name ≠ some (.func eq) := fun name =>
    ⟨fun h => (hall _ (Table.mem_entries_of_get? h)).1 rfl,
      fun h => (hall _ (Table.mem_entries_of_get? h)).2 rfl⟩
  have hheaded : (apply, .head) ∈ headed.invocations := by decide +kernel
  have hunder : (apply, .within (.form .lambda)) ∈ under.invocations := by decide +kernel
  have hdiffer : (eq, .within (.primitive .neq)) ∈ differ.invocations := by decide +kernel
  exact ⟨hunbound, ⟨Run.invoked_of_mem_invocations hheaded, by decide +kernel⟩,
    ⟨Run.invoked_of_mem_invocations hunder, by decide +kernel⟩,
    Run.invoked_of_mem_invocations hdiffer, by decide +kernel⟩

end SpliceLisp
