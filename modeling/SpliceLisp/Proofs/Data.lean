/-
# Data at any moment of a turn

A value that is worked with is evaluated again: by the primitive it is handed to, by
`car` and `cdr`, by a second pass over a list. That is no harm where it is a datum, a
number, a string or a constant or a list of such, for a datum is its own value
(`evaluate_datum`), and that at any moment of a turn, with anything kept by then
(`evaluate_datum_during_turn`).

What is kept is looked at first, and it is found by the text. So the point is what is
kept under the text of a datum. Other expressions have that text too, with marks that
the text does not show; but each of them comes to the datum, so nothing else is ever
kept there. This, with the constants bound to themselves, is what a turn keeps up
(`Facts.Sound.holdAlong`), as long as no constant is bound to something else. The same
is true of the name of a procedure that stays bound to it, and both are `Facts` in the
sense of evaluations that are alike (`Facts.ofData`).

Key definitions: `Facts.HoldAlong`, `Facts.ofData`, `Context.Defines`, `Expr.nesting`.
Key theorems: `Facts.Sound.holdAlong`, `Facts.sound_ofData`, `evaluate_datum`,
`evaluate_datum_during_turn`.
-/
import Mathlib
import SpliceLisp.Proofs.Direct
import SpliceLisp.Proofs.Inert
import SpliceLisp.Proofs.Retrace

namespace SpliceLisp

open Eval Direct

/-! ### Facts along a record -/

namespace Facts

variable (F : Facts)

/-- The facts hold, and go on holding as long as what happens agrees with them. -/
def HoldAlong : Context → List Event → Prop
  | c, [] => F.HoldIn c
  | c, event :: es => F.HoldIn c ∧ (F.Permits event → HoldAlong (c.next event) es)

variable {F} {c : Context} {es fs : List Event}

theorem HoldAlong.first (h : F.HoldAlong c es) : F.HoldIn c := by
  cases es with
  | nil => exact h
  | cons event es => exact h.1

/-- The facts hold along two records, one after the other, if they hold along the
second where all of the first agrees with them. -/
theorem holdAlong_append : F.HoldAlong c (es ++ fs) ↔
    F.HoldAlong c es ∧ ((∀ event ∈ es, F.Permits event) → F.HoldAlong (c.after es) fs) := by
  induction es generalizing c with
  | nil => simpa [HoldAlong] using HoldAlong.first
  | cons event es ih =>
    simp only [List.cons_append, HoldAlong, ih, List.forall_mem_cons, Context.after_cons]
    tauto

theorem HoldAlong.last (h : F.HoldAlong c es) (hes : ∀ event ∈ es, F.Permits event) :
    F.HoldIn (c.after es) := by
  rw [← List.append_nil es] at h
  exact (holdAlong_append.1 h).2 hes

/-- **Sound facts hold along the course of a run.** What is kept under a text of which
the value is known is that value, at each moment until something happens that does not
agree with the facts. -/
theorem Sound.holdAlong (hF : F.Sound) {d : Context} {o : Bool} (h : Course c es o d)
    (hes : ∀ event ∈ es, event.WellFormed) (hc : F.HoldIn c) : F.HoldAlong c es := by
  induction h with
  | nothing | cut => exact hc
  | invoked | applied | exhausted => exact ⟨hc, fun _ => hc⟩
  | bound =>
    obtain ⟨hname, hv⟩ := Event.wellFormed_bound.1 (List.forall_mem_singleton.1 hes)
    exact ⟨hc, fun hbound => hc.bind hname hv hbound⟩
  | @found c e v hget =>
    have hnext : F.HoldIn (c.remember e.render v) := by
      rw [Context.remember_of_kept hget]
      exact hc
    exact ⟨hc, fun _ => ⟨hc, fun _ => hnext⟩⟩
  | @computed c d e v es _ _ hvalue hcourse ih =>
    obtain ⟨hentered, hrest⟩ := List.forall_mem_cons.1 hes
    obtain ⟨hinside, hreturned⟩ := List.forall_mem_append.1 hrest
    have he : e.WellFormed := (Event.wellFormed_entered.1 hentered).1
    have hv : v.WellFormed :=
      (Event.wellFormed_returned.1 (List.forall_mem_singleton.1 hreturned)).2.1
    refine ⟨hc, fun hadmitted => holdAlong_append.2 ⟨ih hinside hc, fun hpermits => ?_⟩⟩
    have hd : F.HoldIn (c.after es) := (ih hinside hc).last hpermits
    -- The value is the known one, since evaluations of this text yield that.
    refine ⟨hd, fun _ => hd.remember hv fun w hw => ?_⟩
    obtain ⟨hknown, -⟩ := (hF.yields he hadmitted hw hc).eq_evaluate (by rw [hvalue]; nofun)
    exact Except.ok.inj (hvalue.symm.trans hknown)
  | broken _ _ ih => exact ⟨hc, fun _ => ih (List.forall_mem_cons.1 hes).2 hc⟩
  | append hfirst _ ih₁ ih₂ =>
    obtain ⟨hes₁, hes₂⟩ := List.forall_mem_append.1 hes
    have halong := ih₁ hes₁ hc
    refine holdAlong_append.2 ⟨halong, fun hpermits => ?_⟩
    have hmiddle := halong.last hpermits
    rw [hfirst.after_eq] at hmiddle ⊢
    exact ih₂ hes₂ hmiddle

/-- Facts that hold before a turn hold in each state of it up to which all that
happened agrees with them. -/
theorem Sound.holdIn_of_turn (hF : F.Sound) (hc : F.HoldIn c) {depth : Nat} {source : Text}
    {done rest : List Event} (h : (turn depth source c).events = done ++ rest)
    (hdone : ∀ event ∈ done, F.Permits event) : F.HoldIn (c.after done) := by
  have hevents := (invariant_wellFormed.turn depth source hc.wellFormed).2.1
  have halong : F.HoldAlong c (done ++ rest) :=
    h ▸ hF.holdAlong (course_evaluateText depth source c) hevents hc
  exact ((holdAlong_append.1 halong).2 hdone).first

end Facts

/-! ### What is known of data and of procedures -/

/-- The names of the constants are bound to these, and the names of the procedures
to them. -/
structure Context.Defines (c : Context) (ps : List Procedure) : Prop where
  constant : ∀ v ∈ [Expr.yes, .no, .nil], c.globals.get? v.render = some v
  procedure : ∀ p ∈ ps, c.globals.get? p.name = some (.func p)

instance (c : Context) (ps : List Procedure) : Decidable (c.Defines ps) :=
  decidable_of_iff ((∀ v ∈ [Expr.yes, .no, .nil], c.globals.get? v.render = some v) ∧
    ∀ p ∈ ps, c.globals.get? p.name = some (.func p))
    ⟨fun h => ⟨h.1, h.2⟩, fun h => ⟨h.constant, h.procedure⟩⟩

/-- What is defined stays so as far as a run goes that binds other names only. -/
theorem Context.Defines.throughout {α : Type} {r : Run α} {ps : List Procedure} {c : Context}
    {es : List Event} (h : c.Defines ps) (hes : es <+: r.events)
    (hnames : ∀ name ∈ r.boundNames,
      (∀ v ∈ [Expr.yes, .no, .nil], v.render ≠ name) ∧ ∀ p ∈ ps, p.name ≠ name) :
    c.Throughout es (Context.Defines · ps) := by
  have hothers : ∀ name v, .bound name v ∈ es →
      (∀ w ∈ [Expr.yes, .no, .nil], w.render ≠ name) ∧ ∀ p ∈ ps, p.name ≠ name :=
    fun name v hv => hnames name (Run.mem_boundNames.2 ⟨v, hes.subset hv⟩)
  clear hes hnames
  induction es generalizing c with
  | nil => exact Context.throughout_nil.2 h
  | cons event es ih =>
    refine Context.throughout_cons.2 ⟨h, ih ?_ fun name v hv =>
      hothers name v (List.mem_cons_of_mem _ hv)⟩
    cases event with
    | bound name v =>
      obtain ⟨hconstant, hprocedure⟩ := hothers name v List.mem_cons_self
      exact ⟨fun w hw => (Table.get?_insert_of_ne _ v (hconstant w hw)).trans (h.constant w hw),
        fun p hp => (Table.get?_insert_of_ne _ v (hprocedure p hp)).trans (h.procedure p hp)⟩
    | _ => exact ⟨h.constant, h.procedure⟩

/-- The constants and the procedures stay bound to their names. Data are their own
values, and such a name has the procedure for its value. -/
def Facts.ofData (ps : List Procedure) : Facts where
  binding name v := (v ∈ [Expr.yes, .no, .nil] ∧ v.render = name) ∨
    ∃ p ∈ ps, p.name = name ∧ v = .func p
  value text v := (Datum v ∧ v.render = text) ∨ ∃ p ∈ ps, p.name = text ∧ v = .func p
  admitted _ := True

namespace Facts

variable {ps : List Procedure} {c : Context}

theorem bound_ofData (h : c.Defines ps) {name : Text} {v : Expr}
    (hv : (ofData ps).binding name v) : c.globals.get? name = some v := by
  obtain ⟨hv, rfl⟩ | ⟨p, hp, rfl, rfl⟩ := hv
  · exact h.constant v hv
  · exact h.procedure p hp

theorem permits_ofData {event : Event} (h : (c.next event).Defines ps) :
    (ofData ps).Permits event := by
  cases event with
  | bound name v =>
    intro w hw
    have hget : (c.bind name v).globals.get? name = some w := bound_ofData h hw
    rw [Context.bind, Table.get?_insert_self] at hget
    exact Option.some.inj hget
  | _ => trivial

theorem permits_of_throughout {es : List Event} (h : c.Throughout es (Context.Defines · ps)) :
    ∀ event ∈ es, (ofData ps).Permits event := by
  induction es generalizing c with
  | nil => nofun
  | cons event es ih =>
    obtain ⟨-, hnext⟩ := Context.throughout_cons.1 h
    exact List.forall_mem_cons.2 ⟨permits_ofData hnext.first, ih hnext⟩

end Facts

theorem Direct.Datum.inert {v : Expr} (h : Datum v) :
    Inert (fun n => .sym n ∈ [Expr.yes, .no, .nil]) v := by
  induction h with
  | @constant v h =>
    cases v with
    | num t => exact .num
    | str t => exact .str
    | sym n =>
      have hne : n ≠ Expr.lambdaName := by
        rintro rfl
        exact absurd (show Expr.lambda ∈ [Expr.yes, .no, .nil] from h) (by decide)
      exact .sym h hne
    | _ => exact h.elim
  | list _ ih => exact .list ih

/-- What is inert and well formed is a datum, if its symbols are constants. -/
theorem Inert.datum {v : Expr} (h : Inert (fun n => .sym n ∈ [Expr.yes, .no, .nil]) v)
    (hv : v.WellFormed) : Datum v := by
  induction h with
  | num => cases hv with
    | num ht => exact .constant ht
  | str => cases hv with
    | str ht => exact .constant ht
  | sym hn _ => exact .constant hn
  | list _ ih => exact .list fun e he => ih e he (hv.items e he)

theorem Procedure.readable_name {p : Procedure} (hp : p ∈ builtins) :
    (Expr.sym p.name).Readable ∧ .sym p.name ∉ [Expr.yes, .no, .nil] := by
  have hall : ∀ p ∈ builtins,
      (Lexeme.Kind.admits .symbol p.name || Lexeme.Kind.admits .special p.name) = true ∧
        .sym p.name ∉ [Expr.yes, .no, .nil] := by
    decide +kernel
  exact ⟨.sym (hall p hp).1, (hall p hp).2⟩

theorem Direct.Datum.render_ne_name {v : Expr} (h : Datum v) {p : Procedure}
    (hp : p ∈ Procedure.builtins) : v.render ≠ p.name := by
  obtain ⟨hr, hconstant⟩ := Procedure.readable_name hp
  intro htext
  obtain rfl : v = .sym p.name := Expr.render_inj h.plain.readable hr h.plain.quoteless rfl htext
  cases h with
  | constant h => exact hconstant h

namespace Facts

variable {ps : List Procedure} {c : Context}

section Builtins

variable (hps : ∀ p ∈ ps, p ∈ Procedure.builtins)
include hps

theorem consistent_ofData : (ofData ps).Consistent where
  unique := by
    rintro _ v w (⟨hv, rfl⟩ | ⟨p, hp, rfl, rfl⟩) (⟨hw, htext⟩ | ⟨q, hq, hname, rfl⟩)
    · exact Expr.render_inj hv.plain.readable hw.plain.readable hv.plain.quoteless
        hw.plain.quoteless htext.symm
    · exact absurd hname.symm (hv.render_ne_name (hps q hq))
    · exact absurd htext (hw.render_ne_name (hps p hp))
    · have hpq : p = q :=
        List.inj_on_of_nodup_map Procedure.nodup_name_builtins (hps p hp) (hps q hq) hname.symm
      rw [hpq]
  wellFormed := by
    rintro _ v (⟨hv, -⟩ | ⟨p, hp, -, rfl⟩)
    · exact hv.plain.readable.wellFormed
    · exact .func (hps p hp)

theorem yields_name {p : Procedure} (hp : p ∈ ps) {e : Expr} (he : e.WellFormed)
    (htext : e.render = p.name) (hc : (ofData ps).HoldIn c) :
    (ofData ps).Yields c (fun k => evaluate k e) (.func p) := by
  have hname := (Procedure.readable_name (hps p hp)).1
  refine .of_text (consistent_ofData hps) hname rfl (Or.inr ⟨p, hp, rfl, rfl⟩) ?_ he htext hc
  intro e c hmark _ hu hc
  obtain rfl := Expr.eq_of_unquoted hmark rfl hu
  exact (Yields.global hc (Or.inr ⟨p, hp, rfl, rfl⟩)).bind fun d hd => .pure hd.right _

/-- Data and the names of procedures do have these values. -/
theorem sound_ofData : (ofData ps).Sound where
  toConsistent := consistent_ofData hps
  yields := by
    rintro e v c he - (⟨hv, htext⟩ | ⟨p, hp, hname, rfl⟩) hc
    · exact yields_inert (consistent_ofData hps) (fun hd h => Or.inl ⟨h.datum hd, rfl⟩)
        (fun hn => Or.inl ⟨hn, rfl⟩) hv.inert hv.plain.readable.wellFormed he htext.symm hc
    · exact yields_name hps hp he hname.symm hc

end Builtins

theorem holdIn_ofData (hw : c.WellFormed) (hcache : c.cache = ∅) (h : c.Defines ps) :
    (ofData ps).HoldIn c :=
  holdIn_of_cache hw hcache (bound_ofData h)

/-- One step into an expression of a known text is enough room to come to the
value. -/
theorem Yields.evaluate_succ {F : Facts} (hF : F.Consistent) (h : F.HoldIn c) {e v : Expr}
    (hv : F.value e.render v) {k : Nat}
    (hstep : F.Yields c (fun _ => dispatch (fun d => SpliceLisp.evaluate k d) e) v) :
    F.Yields c (fun _ => SpliceLisp.evaluate (k + 1) e) v := by
  cases hget : c.cache.get? e.render with
  | some w =>
    obtain rfl := h.kept hv hget
    exact ⟨_, ⟨0, fun _ _ => evaluate_of_kept hget⟩, rfl, h.alike⟩
  | none =>
    obtain ⟨⟨_, d, es⟩, ⟨N, hN⟩, rfl, hd⟩ := hstep
    exact ⟨_, ⟨0, fun _ _ => evaluate_of_ok hget (hN N le_rfl)⟩, rfl,
      hd.trans (hd.right.alike_remember hF hv)⟩

end Facts

/-! ### Data are their own values -/

namespace Expr

mutual

/-- How deep lists are nested in the expression below the outermost. -/
def nesting : Expr → Nat
  | list es => nestingOfItems es
  | _ => 0

/-- One more than the nesting of any of the items. -/
def nestingOfItems : List Expr → Nat
  | [] => 0
  | e :: es => max (nesting e + 1) (nestingOfItems es)

end

theorem nesting_lt_of_mem {e : Expr} : ∀ {es : List Expr}, e ∈ es → e.nesting < (list es).nesting
  | d :: es, h => by
    change e.nesting < max (d.nesting + 1) (nestingOfItems es)
    rcases List.mem_cons.1 h with rfl | h
    · omega
    · have hrest : e.nesting < nestingOfItems es := nesting_lt_of_mem h
      omega

end Expr

section Datum

variable {ps : List Procedure} (hps : ∀ p ∈ ps, p ∈ Procedure.builtins) {c : Context}
include hps

/-- A datum yields itself where evaluations may be nested deeper than it is. -/
theorem yields_datum {d : Expr} (hd : Datum d) {k : Nat} (hk : d.nesting < k)
    (hc : (Facts.ofData ps).HoldIn c) : (Facts.ofData ps).Yields c (fun _ => evaluate k d) d := by
  induction hd generalizing c k with
  | @constant v h =>
    obtain ⟨k, rfl⟩ : ∃ j, k = j + 1 := ⟨k - 1, by omega⟩
    refine .evaluate_succ (Facts.consistent_ofData hps) hc (Or.inl ⟨.constant h, rfl⟩) ?_
    cases v with
    | num t => exact .pure hc _
    | str t => exact .pure hc _
    | sym n => exact (Facts.Yields.global hc (Or.inl ⟨h, rfl⟩)).bind fun d hd => .pure hd.right _
    | _ => exact h.elim
  | @list vs hvs ih =>
    obtain ⟨k, rfl⟩ : ∃ j, k = j + 1 := ⟨k - 1, by omega⟩
    refine .evaluate_succ (Facts.consistent_ofData hps) hc (Or.inl ⟨.list hvs, rfl⟩) ?_
    cases vs with
    | nil => exact .pure hc _
    | cons head tail =>
      have hhead : Datum head := hvs head (by simp)
      have hall : List.Forall₂ (fun e v => ∀ c, (Facts.ofData ps).HoldIn c →
          (Facts.ofData ps).Yields c (fun _ => evaluate k e) v) (head :: tail) (head :: tail) :=
        List.forall₂_same.2 fun e he c hc =>
          ih e he (by have hlt := Expr.nesting_lt_of_mem he; omega) hc
      exact Facts.Yields.items hc hhead.plain.isFunction hhead.ne_func hall rfl

/-- **A datum is its own value** wherever the facts about data hold, and evaluating it
leaves the bindings as they are, and what is kept under other texts. -/
theorem evaluate_datum {d : Expr} (hd : Datum d) {k : Nat} (hk : d.nesting < k)
    (hc : (Facts.ofData ps).HoldIn c) :
    (evaluate k d c).outcome = .ok d ∧ (Facts.ofData ps).Alike c (evaluate k d c).context := by
  obtain ⟨r, ⟨N, hN⟩, ho, halike⟩ := yields_datum hps hd hk hc
  rw [← hN N le_rfl] at ho halike
  exact ⟨ho, halike⟩

end Datum

/-- **Data evaluate to themselves at any moment.** Take any turn of a session, and any
state that it goes through, such that the constants have been bound to themselves
since the turn began. Whatever has been kept by then, a datum has itself for its value
if evaluations may be nested deeper than its lists are, and the globals stay as they
are. -/
theorem evaluate_datum_during_turn (depth : Nat) (earlier : List Text) (source : Text)
    {done rest : List Event}
    (h : (turn depth source (Context.startup.afterTurns depth earlier)).events = done ++ rest)
    (hconstants : (Context.startup.afterTurns depth earlier).Throughout done (Context.Defines · []))
    {d : Expr} (hd : Datum d) {k : Nat} (hk : d.nesting < k) :
    let state := (Context.startup.afterTurns depth earlier).after done
    (evaluate k d state).outcome = .ok d ∧ (evaluate k d state).context.globals = state.globals := by
  intro state
  have hnone : ∀ p ∈ ([] : List Procedure), p ∈ Procedure.builtins := nofun
  have hstart : (Facts.ofData []).HoldIn (Context.startup.afterTurns depth earlier) :=
    Facts.holdIn_ofData (Context.wellFormed_afterTurns depth earlier)
      (Context.cache_afterTurns depth Context.cache_startup earlier) hconstants.first
  have hstate : (Facts.ofData []).HoldIn state :=
    (Facts.sound_ofData hnone).holdIn_of_turn hstart h (Facts.permits_of_throughout hconstants)
  obtain ⟨houtcome, halike⟩ := evaluate_datum hnone hd hk hstate
  exact ⟨houtcome, halike.globals.symm⟩

/-- In the middle of a turn, in the body of a function and right after a binding. The
first item of the list is kept by then, under the text of an expression with a mark
in it. -/
theorem evaluate_datum_during_turn_kept :
    let earlier : List Text := ["(let keep (lambda (x) (let n x)))"]
    let source : Text := "(keep ('(1 \"lambda\")))"
    let start := Context.startup.afterTurns depthLimit earlier
    let done := (turn depthLimit source start).events.take 36
    let kept : Expr := .list [.list [.num "1", .str "\"lambda\""]]
    let d : Expr := .list [kept, .sym "#nil", .list []]
    let state := start.after done
    (start.Throughout done (Context.Defines · []) ∧ Datum d ∧ d.nesting < 4) ∧
      state.cache.get? kept.render = some kept ∧ state.globals.get? "n" = some (.list [.num "1", .str "\"lambda\""]) ∧
      (evaluate 4 d state).outcome = .ok d ∧
      (evaluate 4 d state).context.globals = state.globals := by
  intro earlier source start done kept d state
  have hstart : start.Defines [] := by decide +kernel
  have hconstants : start.Throughout done (Context.Defines · []) :=
    hstart.throughout (r := turn depthLimit source start) (List.take_prefix 36 _)
      (by decide +kernel)
  have hnumber : Datum (.num "1") :=
    .constant (show Lexeme.Kind.admits .number "1".toList = true by decide +kernel)
  have hstring : Datum (.str "\"lambda\"") :=
    .constant (show Lexeme.Kind.admits .string "\"lambda\"".toList = true by decide +kernel)
  have hkept : Datum kept := .list (List.forall_mem_singleton.2
    (.list (List.forall_mem_cons.2 ⟨hnumber, List.forall_mem_singleton.2 hstring⟩)))
  have hd : Datum d := .list (List.forall_mem_cons.2 ⟨hkept,
    List.forall_mem_cons.2 ⟨datum_nil, List.forall_mem_singleton.2 (.list nofun)⟩⟩)
  have hnesting : d.nesting < 4 := by decide +kernel
  have hcache : state.cache.get? kept.render = some kept := by decide +kernel
  have hglobals : state.globals.get? "n" = some (.list [.num "1", .str "\"lambda\""]) := by decide +kernel
  have hevents : (turn depthLimit source start).events =
      done ++ (turn depthLimit source start).events.drop 36 :=
    (List.take_append_drop 36 _).symm
  refine ⟨⟨hconstants, hd, hnesting⟩, hcache, hglobals, ?_⟩
  -- The two sides differ in abbreviations; the evaluation is not to be unfolded for that.
  with_reducible
    exact evaluate_datum_during_turn depthLimit earlier source hevents hconstants hd hnesting

end SpliceLisp
