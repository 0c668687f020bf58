/-
# Sessions stay well formed

What evaluation makes of well-formed expressions is well formed
(`invariant_wellFormed`): what it reads, what it computes, what it defers and
what it takes from a table. A session holds well-formed expressions at its start,
so all that a context holds and all that a turn meets is well formed, after any
turns and whatever their outcomes (`wellFormed_of_mem_session`).

It follows that the text of a number that a session meets can always be taken
for a double, and that what is without procedures prints as text that reads
back.

Key definitions: `Expr.parts`, `Context.exprs`, `Event.exprs`, `Run.exprs`.
Key theorems: `Context.wellFormed_startup`, `invariant_wellFormed`,
`wellFormed_of_mem_turn`, `wellFormed_of_mem_session`.
-/
import Mathlib
import SpliceLisp.Proofs.Invariant
import SpliceLisp.Proofs.NumberText
import SpliceLisp.Proofs.NumberValue
import SpliceLisp.Proofs.Procedureless

namespace SpliceLisp

namespace Expr

mutual

/-- The expression, and the parts of its items if it is a list. -/
def parts : Expr → List Expr
  | list es => list es :: partsOfAll es
  | e => [e]

def partsOfAll : List Expr → List Expr
  | [] => []
  | e :: es => parts e ++ partsOfAll es

end

theorem mem_partsOfAll {d : Expr} {es : List Expr} :
    d ∈ partsOfAll es ↔ ∃ e ∈ es, d ∈ e.parts := by
  induction es with
  | nil => simp [partsOfAll]
  | cons e es ih => simp [partsOfAll, ih]

/-- A part of a shaped expression is shaped. -/
theorem Shaped.parts {P : Procedure → Prop} {e : Expr} (h : e.Shaped P) :
    ∀ d ∈ e.parts, d.Shaped P := by
  induction h with
  | num ht => simpa [Expr.parts] using Shaped.num ht
  | str ht => simpa [Expr.parts] using Shaped.str ht
  | sym hn => simpa [Expr.parts] using Shaped.sym hn
  | quote he _ => simpa [Expr.parts] using he.quote
  | func hp => simpa [Expr.parts] using Shaped.func hp
  | list hes ih =>
    intro d hd
    rw [Expr.parts, List.mem_cons, mem_partsOfAll] at hd
    obtain rfl | ⟨e, he, hd⟩ := hd
    · exact .list hes
    · exact ih e he d hd

theorem exists_toNumber_of_mem_parts {e : Expr} (h : e.WellFormed) {t : Text}
    (ht : num t ∈ e.parts) : ∃ x, (num t).toNumber = .ok x := by
  cases h.parts _ ht with
  | num hadmits => exact exists_toNumber hadmits

theorem wellFormed_constant : ∀ e ∈ [yes, no, nil, lambda], e.WellFormed := by
  have hnames : ∀ n ∈ ["#t".toList, "#f".toList, "#nil".toList, lambdaName],
      (Lexeme.Kind.admits .symbol n || Lexeme.Kind.admits .special n) = true := by
    decide +kernel
  intro e he
  obtain ⟨n, hn, rfl⟩ := List.mem_map.1
    (show e ∈ ["#t".toList, "#f".toList, "#nil".toList, lambdaName].map sym from he)
  exact .sym (hnames n hn)

end Expr

/-! ### What a session holds and meets -/

/-- The expressions that a context holds: the names that it binds, as symbols,
what they are bound to, and the values kept for the turn. -/
def Context.exprs (c : Context) : List Expr :=
  (c.globals.entries.flatMap fun p => [.sym p.1, p.2]) ++ c.cache.entries.map Prod.snd

/-- The expressions that are met when something happens. -/
def Event.exprs : Event → List Expr
  | .entered e c => e :: c.exprs
  | .returned e v c => e :: v :: c.exprs
  | .invoked p _ => [.func p]
  | .bound name v => [.sym name, v]
  | .applied _ _ | .exhausted => []

/-- The expressions that a run meets, and those that it ends with. -/
def Run.exprs (run : Run Expr) : List Expr :=
  run.events.flatMap Event.exprs ++ (run.outcome.toOption.toList ++ run.context.exprs)

theorem Run.mem_exprs_iff {run : Run Expr} {e : Expr} : e ∈ run.exprs ↔
    (∃ event ∈ run.events, e ∈ event.exprs) ∨ run.outcome = .ok e ∨ e ∈ run.context.exprs := by
  have hvalue : e ∈ run.outcome.toOption.toList ↔ run.outcome = .ok e := by
    cases run.outcome with
    | ok v => simp [Except.toOption, eq_comm]
    | error s => simp [Except.toOption]
  simp only [exprs, List.mem_append, List.mem_flatMap, hvalue]

/-- All that the context holds is well formed. -/
def Context.WellFormed (c : Context) : Prop := ∀ e ∈ c.exprs, e.WellFormed

/-- All that is met is well formed. -/
def Event.WellFormed (event : Event) : Prop := ∀ e ∈ event.exprs, e.WellFormed

namespace Event

variable {e v : Expr} {c : Context}

theorem wellFormed_entered : (entered e c).WellFormed ↔ e.WellFormed ∧ c.WellFormed :=
  List.forall_mem_cons

theorem wellFormed_returned :
    (returned e v c).WellFormed ↔ e.WellFormed ∧ v.WellFormed ∧ c.WellFormed := by
  simp only [WellFormed, exprs, List.forall_mem_cons, Context.WellFormed]

theorem wellFormed_invoked {p : Procedure} {route : Route} :
    (invoked p route).WellFormed ↔ (Expr.func p).WellFormed := by
  simp [WellFormed, exprs]

theorem wellFormed_bound {name : Text} :
    (bound name v).WellFormed ↔ (Expr.sym name).WellFormed ∧ v.WellFormed := by
  simp [WellFormed, exprs]

end Event

namespace Context

theorem wellFormed_iff {c : Context} : c.WellFormed ↔
    (∀ p ∈ c.globals.entries, (Expr.sym p.1).WellFormed ∧ p.2.WellFormed) ∧
      ∀ p ∈ c.cache.entries, p.2.WellFormed := by
  simp only [WellFormed, exprs, List.forall_mem_append, List.forall_mem_flatMap,
    List.forall_mem_map, List.forall_mem_cons, List.not_mem_nil, false_implies, implies_true,
    and_true]

namespace WellFormed

variable {c : Context} (h : c.WellFormed)
include h

theorem global {name : Text} {v : Expr} (hv : c.globals.get? name = some v) : v.WellFormed :=
  ((wellFormed_iff.1 h).1 _ (Table.mem_entries_of_get? hv)).2

theorem kept {text : Text} {v : Expr} (hv : c.cache.get? text = some v) : v.WellFormed :=
  (wellFormed_iff.1 h).2 _ (Table.mem_entries_of_get? hv)

theorem bind {name : Text} {v : Expr} (hname : (Expr.sym name).WellFormed) (hv : v.WellFormed) :
    (c.bind name v).WellFormed := by
  obtain ⟨hglobals, hcache⟩ := wellFormed_iff.1 h
  refine wellFormed_iff.2 ⟨fun p hp => ?_, hcache⟩
  obtain rfl | hp := Table.mem_entries_insert hp
  · exact ⟨hname, hv⟩
  · exact hglobals p hp

theorem remember {text : Text} {v : Expr} (hv : v.WellFormed) : (c.remember text v).WellFormed := by
  obtain ⟨hglobals, hcache⟩ := wellFormed_iff.1 h
  refine wellFormed_iff.2 ⟨hglobals, fun p hp => ?_⟩
  obtain rfl | hp := Table.mem_entries_insert hp
  · exact hv
  · exact hcache p hp

theorem endTurn : c.endTurn.WellFormed :=
  wellFormed_iff.2 ⟨(wellFormed_iff.1 h).1, by simp⟩

end WellFormed

theorem wellFormed_name_of_mem_startupBindings {p : Text × Expr} (h : p ∈ startupBindings) :
    (Expr.sym p.1).WellFormed := by
  have hall : ∀ n ∈ startupBindings.map Prod.fst,
      (Lexeme.Kind.admits .symbol n || Lexeme.Kind.admits .special n) = true := by
    decide +kernel
  exact .sym (hall p.1 (List.mem_map_of_mem h))

theorem globals_startup : startup.globals = Table.empty.insertAll startupBindings := by
  rw [startup]

theorem cache_startup : startup.cache = ∅ := by
  rw [startup]

/-- At its start a session holds constants and builtins. -/
theorem wellFormed_startup : startup.WellFormed := by
  refine wellFormed_iff.2 ⟨fun p hp => ?_, by simp [cache_startup]⟩
  rw [globals_startup] at hp
  obtain hp | hp := Table.mem_entries_insertAll hp
  · refine ⟨wellFormed_name_of_mem_startupBindings hp, ?_⟩
    obtain hp | hp := List.mem_append.1 hp
    · have hv : p.2 ∈ [Expr.yes, .no, .nil] := List.mem_map_of_mem (f := Prod.snd) hp
      exact Expr.wellFormed_constant _ (List.mem_append_left [Expr.lambda] hv)
    · obtain ⟨q, hq, rfl⟩ := List.mem_map.1 hp
      exact .func hq
  · cases hp

end Context

namespace Domain

def wellFormed : Domain where
  good := Expr.WellFormed
  allowed p := p ∈ Procedure.builtins
  items := Expr.Shaped.items
  list := .list
  quote := .quote
  read h := (Expr.readable_of_read h).wellFormed
  number h := by
    obtain ⟨t, rfl, ht⟩ := Expr.readable_of_ofNumber h
    exact .num ht
  constant := Expr.wellFormed_constant

theorem mem_builtins_of_calls {p : Procedure} {route : Route} (h : wellFormed.Calls p route) :
    p ∈ Procedure.builtins := by
  rcases h.allowed_or with hp | rfl | rfl
  · exact hp
  · decide
  · decide

theorem fine_wellFormed {v : Expr} (h : v.WellFormed) : wellFormed.Fine v := by
  refine ⟨h, fun p hp => ?_⟩
  subst hp
  cases h with
  | func hp => exact hp

end Domain

/-- What happens in a session keeps it well formed. -/
theorem invariant_wellFormed : Invariant .wellFormed Context.WellFormed Event.WellFormed where
  global hc hv := Domain.fine_wellFormed (hc.global hv)
  kept hc he hv := ⟨Domain.fine_wellFormed (hc.kept hv), Domain.fine_wellFormed he⟩
  bind hc _ hname hv := ⟨hc.bind hname hv.good, Event.wellFormed_bound.2 ⟨hname, hv.good⟩⟩
  remember hc _ hv := hc.remember hv.1.good
  entered hc he := Event.wellFormed_entered.2 ⟨he, hc⟩
  returned hc hv := Event.wellFormed_returned.2 ⟨hv.2.good, hv.1.good, hc⟩
  invoked hp := Event.wellFormed_invoked.2 (.func (Domain.mem_builtins_of_calls hp))
  applied _ _ := nofun
  exhausted := nofun
  endTurn hc := hc.endTurn

/-- The context between two turns is well formed, whatever the turns before. -/
theorem Context.wellFormed_afterTurns (depth : Nat) (sources : List Text) :
    (startup.afterTurns depth sources).WellFormed :=
  invariant_wellFormed.afterTurns depth sources wellFormed_startup

/-- All that a turn meets in a well-formed context is well formed, and so is all
that it ends with. -/
theorem wellFormed_of_mem_turn {c : Context} (hc : c.WellFormed) (depth : Nat) (source : Text) :
    ∀ e ∈ (turn depth source c).exprs, e.WellFormed := by
  obtain ⟨hcontext, hevents, -, hvalue⟩ := invariant_wellFormed.turn depth source hc
  intro e he
  obtain ⟨event, hevent, he⟩ | he | he := Run.mem_exprs_iff.1 he
  · exact hevents event hevent e he
  · exact (hvalue e he).good
  · exact hcontext e he

/-- **A session stays well formed.** After any turns from the start, all that
the context holds is well formed, and so is all that the next turn meets on its
way, and what it ends with. Every number in it has a value, and what is without
procedures prints as text that reads back with the same text. -/
theorem wellFormed_of_mem_session (depth : Nat) (earlier : List Text) (source : Text) :
    let before := Context.startup.afterTurns depth earlier
    ∀ e ∈ before.exprs ++ (turn depth source before).exprs, e.WellFormed ∧
      (∀ t, .num t ∈ e.parts → ∃ x, (Expr.num t).toNumber = .ok x) ∧
      (e.Procedureless ↔ ∃ d, Expr.read e.render = .ok d ∧ d.render = e.render) := by
  intro before e he
  have hbefore : before.WellFormed := Context.wellFormed_afterTurns depth earlier
  have hw : e.WellFormed := (List.mem_append.1 he).elim (hbefore e)
    (wellFormed_of_mem_turn hbefore depth source e)
  exact ⟨hw, fun t ht => Expr.exists_toNumber_of_mem_parts hw ht, Expr.procedureless_iff hw⟩

/-- A computed number and a deferred text in a list, from a turn that follows a
failed one. -/
theorem wellFormed_of_mem_session_deferred :
    let before := Context.startup.afterTurns depthLimit ["(let a 1.5)", "(+ a (undefined))"]
    let run := turn depthLimit "(cons (+ a a) '(car a))" before
    let v : Expr := .list [.num "3", .quote "(car a)"]
    (v ∈ before.exprs ++ run.exprs ∧ .num "3".toList ∈ v.parts ∧ v.Procedureless) ∧ v.WellFormed ∧
      (∃ x, (Expr.num "3").toNumber = .ok x) ∧
      ∃ d, Expr.read v.render = .ok d ∧ d.render = v.render := by
  intro before run v
  have hv : run.outcome = .ok v := by decide +kernel
  have hmem : v ∈ before.exprs ++ run.exprs :=
    List.mem_append_right _ (Run.mem_exprs_iff.2 (Or.inr (Or.inl hv)))
  have hpart : .num "3".toList ∈ v.parts := by decide +kernel
  have hread : Expr.read "(3 '(car a))".toList = .ok v := by decide +kernel
  have hp : v.Procedureless := (Expr.readable_iff.1 (Expr.readable_of_read hread)).2
  obtain ⟨hw, hnum, hiff⟩ := wellFormed_of_mem_session depthLimit
    ["(let a 1.5)", "(+ a (undefined))"] "(cons (+ a a) '(car a))" v hmem
  exact ⟨⟨hmem, hpart, hp⟩, hw, hnum _ hpart, hiff.1 hp⟩

end SpliceLisp
