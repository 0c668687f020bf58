/-
# The same text within a turn

A value is kept under a text when its evaluation ends, and an evaluation that
begins later takes it from there. One that begins earlier, while the first is
still under way, finds nothing, and when a global was bound meanwhile it may come
to another value: a text can have two values in one turn
(`Run.exists_calls_ne`).

That is the only way. Evaluations of one text that lie equally deep inside
evaluations of that text have the same value, however else they are nested and
whatever is bound in between (`Run.value_eq_of_nesting_eq`); in particular those
that lie inside none.

The proof is on the record of a run, by the way it is built (`Recorded`): a value
is found in the table of kept values, or computed with a record of its own and
then kept, or the record breaks off there. Once a text has a value that is kept,
all its evaluations find that (`Recorded.of_kept`); and what an outermost
evaluation of a text returns is what is kept at the end
(`Recorded.kept_of_outermost`).

Key definitions: `Call`, `Run.calls`, `Recorded`.
Key theorems: `Course.recorded`, `recorded_turn`, `Recorded.of_kept`, `Recorded.value_eq`,
`Run.value_eq_of_nesting_eq`.
-/
import Mathlib
import SpliceLisp.Proofs.Course

namespace SpliceLisp

/-! ### Calls of the evaluator -/

/-- An evaluation that ended with a value, and the evaluations that were under way when
it began, the innermost first. -/
structure Call where
  expr : Expr
  value : Expr
  within : List Expr
deriving DecidableEq

/-- How many of the evaluations are about expressions with the text. -/
def pendingOn (text : Text) (pending : List Expr) : Nat :=
  pending.countP fun e => e.render = text

/-- How deep a call lies inside evaluations of its own text. -/
def Call.nesting (a : Call) : Nat := pendingOn a.expr.render a.within

/-- The calls in a record that begins with certain evaluations under way. -/
def callsFrom (pending : List Expr) : List Event → List Call
  | [] => []
  | .entered e _ :: es => callsFrom (e :: pending) es
  | .returned e v _ :: es => ⟨e, v, pending.tail⟩ :: callsFrom pending.tail es
  | _ :: es => callsFrom pending es

/-- The calls in a run, in the order in which they end. -/
def Run.calls {α : Type} (r : Run α) : List Call := callsFrom [] r.events

theorem pendingOn_cons_self (e : Expr) (pending : List Expr) :
    pendingOn e.render (e :: pending) = pendingOn e.render pending + 1 :=
  List.countP_cons_of_pos (by simp)

theorem pendingOn_cons_of_ne {e : Expr} {text : Text} (h : e.render ≠ text)
    (pending : List Expr) : pendingOn text (e :: pending) = pendingOn text pending :=
  List.countP_cons_of_neg (by simpa using h)

/-- Whether an evaluation begins or ends with the event. -/
def Event.isOfCall : Event → Bool
  | .entered _ _ | .returned _ _ _ => true
  | _ => false

theorem callsFrom_other {event : Event} (h : event.isOfCall = false) (pending : List Expr)
    (es : List Event) : callsFrom pending (event :: es) = callsFrom pending es := by
  cases event with
  | entered _ _ | returned _ _ _ => cases h
  | invoked _ | applied _ _ | bound _ _ | exhausted => rfl

/-! ### How records are built -/

/-- The events lead from certain kept values to others, or break off. A value is found,
or none is found and one is computed and kept, unless the record breaks off before. -/
inductive Recorded : Table → List Event → Option Table → Prop
  | nothing {k : Table} : Recorded k [] (some k)
  | cut {k : Table} : Recorded k [] none
  | other {k : Table} {event : Event} : event.isOfCall = false → Recorded k [event] (some k)
  | found {k : Table} {e v : Expr} {c d : Context} : k.get? e.render = some v →
      Recorded k [.entered e c, .returned e v d] (some k)
  | computed {k l : Table} {e v : Expr} {c d : Context} {es : List Event} :
      k.get? e.render = none → Recorded k es (some l) →
      Recorded k (.entered e c :: (es ++ [.returned e v d])) (some (l.insert e.render v))
  | broken {k : Table} {e : Expr} {c : Context} {es : List Event} :
      k.get? e.render = none → Recorded k es none → Recorded k (.entered e c :: es) none
  | append {k l : Table} {o : Option Table} {es fs : List Event} :
      Recorded k es (some l) → Recorded l fs o → Recorded k (es ++ fs) o

/-- A run leads from what is kept before it to what is kept after it. -/
theorem Course.recorded {c d : Context} {es : List Event} {o : Bool} (h : Course c es o d) :
    Recorded c.cache es (if o then some d.cache else none) := by
  induction h with
  | nothing => exact .nothing
  | cut => exact .cut
  | invoked | applied | bound => exact .other rfl
  | exhausted => exact .append (.other rfl) .cut
  | found hget => exact .found hget
  | computed hnone _ _ ih => exact .computed hnone ih
  | broken hnone _ ih => exact .broken hnone ih
  | append _ _ ih₁ ih₂ => exact .append ih₁ ih₂

/-- The record of a turn is built that way. -/
theorem recorded_turn (depth : Nat) (source : Text) (c : Context) :
    ∃ o, Recorded c.cache (turn depth source c).events o :=
  ⟨_, (course_evaluateText depth source c).recorded⟩

/-! ### The calls of one text -/

namespace Recorded

variable {k : Table} {es : List Event} {o : Option Table}

/-- What comes after a record that does not break off begins with the same
evaluations under way. -/
theorem callsFrom_append (h : Recorded k es o) (ho : o.isSome = true) (pending : List Expr)
    (fs : List Event) :
    callsFrom pending (es ++ fs) = callsFrom pending es ++ callsFrom pending fs := by
  induction h generalizing pending fs with
  | nothing => rfl
  | cut => cases ho
  | other hother => rw [List.singleton_append, callsFrom_other hother, callsFrom_other hother]; rfl
  | found _ => rfl
  | computed _ _ ih =>
    simp only [List.cons_append, List.append_assoc, callsFrom, ih rfl]
    rfl
  | broken _ _ => cases ho
  | append _ _ ih₁ ih₂ => rw [List.append_assoc, ih₁ rfl, ih₁ rfl, ih₂ ho, List.append_assoc]

theorem mem_callsFrom_append {l : Table} (h : Recorded k es (some l)) {pending : List Expr}
    {fs : List Event} {a : Call} : a ∈ callsFrom pending (es ++ fs) ↔
      a ∈ callsFrom pending es ∨ a ∈ callsFrom pending fs := by
  rw [h.callsFrom_append rfl, List.mem_append]

/-- The calls in the record of a computed value are those on the way to it, and
the one that has it. -/
theorem mem_callsFrom_computed {l : Table} (h : Recorded k es (some l)) {e v : Expr}
    {c d : Context} {pending : List Expr} {a : Call} :
    a ∈ callsFrom pending (.entered e c :: (es ++ [.returned e v d])) ↔
      a ∈ callsFrom (e :: pending) es ∨ a = ⟨e, v, pending⟩ := by
  rw [callsFrom, h.mem_callsFrom_append, callsFrom, callsFrom, List.tail_cons, List.mem_singleton]

variable {text : Text}

/-- A kept value stays, and every evaluation of the text finds it, so that none
lies inside another. -/
theorem of_kept (h : Recorded k es o) {w : Expr} (hw : k.get? text = some w) :
    (∀ l, o = some l → l.get? text = some w) ∧ ∀ pending, ∀ a ∈ callsFrom pending es,
      a.expr.render = text → a.value = w ∧ pendingOn text a.within = pendingOn text pending := by
  induction h with
  | nothing => exact ⟨fun l hl => Option.some.inj hl ▸ hw, by simp [callsFrom]⟩
  | cut => exact ⟨nofun, by simp [callsFrom]⟩
  | other hother =>
    exact ⟨fun l hl => Option.some.inj hl ▸ hw, by simp [callsFrom_other hother, callsFrom]⟩
  | @found k e v c d hfound =>
    refine ⟨fun l hl => Option.some.inj hl ▸ hw, fun pending a ha htext => ?_⟩
    obtain rfl := List.mem_singleton.1 ha
    have hv : some v = some w := hfound.symm.trans (htext ▸ hw)
    exact ⟨Option.some.inj hv, rfl⟩
  | @computed k l e v c d es hnone hes ih =>
    have hne : e.render ≠ text := by rintro rfl; rw [hw] at hnone; cases hnone
    obtain ⟨hkept, hcalls⟩ := ih hw
    refine ⟨fun l' hl => ?_, fun pending a ha htext => ?_⟩
    · obtain rfl := Option.some.inj hl
      rw [Table.get?_insert_of_ne _ _ hne.symm]
      exact hkept l rfl
    · rcases hes.mem_callsFrom_computed.1 ha with ha | rfl
      · rw [← pendingOn_cons_of_ne hne pending]
        exact hcalls _ a ha htext
      · exact absurd htext hne
  | @broken k e c es hnone _ ih =>
    have hne : e.render ≠ text := by rintro rfl; rw [hw] at hnone; cases hnone
    refine ⟨nofun, fun pending a ha htext => ?_⟩
    rw [← pendingOn_cons_of_ne hne pending]
    exact (ih hw).2 _ a ha htext
  | append hes _ ih₁ ih₂ =>
    obtain ⟨hkept₁, hcalls₁⟩ := ih₁ hw
    obtain ⟨hkept₂, hcalls₂⟩ := ih₂ (hkept₁ _ rfl)
    refine ⟨hkept₂, fun pending a ha htext => ?_⟩
    exact (hes.mem_callsFrom_append.1 ha).elim (hcalls₁ pending a · htext) (hcalls₂ pending a · htext)

/-- With nothing kept for the text at the end, there was no call on it. -/
theorem forall_ne_of_not_kept (h : Recorded k es o) {l : Table} (hl : o = some l)
    (hnone : l.get? text = none) : ∀ pending, ∀ a ∈ callsFrom pending es, a.expr.render ≠ text := by
  induction h generalizing l with
  | nothing => simp [callsFrom]
  | cut => simp [callsFrom]
  | other hother => simp [callsFrom_other hother, callsFrom]
  | found hfound =>
    intro pending a ha htext
    obtain rfl := List.mem_singleton.1 ha
    obtain rfl := Option.some.inj hl
    rw [← htext, hfound] at hnone
    cases hnone
  | @computed k l' e v c d es _ hes ih =>
    obtain rfl := Option.some.inj hl
    have hne : e.render ≠ text := by rintro rfl; simp at hnone
    rw [Table.get?_insert_of_ne _ _ hne.symm] at hnone
    intro pending a ha
    rcases hes.mem_callsFrom_computed.1 ha with ha | rfl
    · exact ih rfl hnone _ a ha
    · exact hne
  | broken _ _ => cases hl
  | @append k l' o es fs hes hfs ih₁ ih₂ =>
    have hbefore : l'.get? text = none := by
      cases hget : l'.get? text with
      | none => rfl
      | some w =>
        rw [(hfs.of_kept hget).1 l hl] at hnone
        cases hnone
    intro pending a ha
    exact (hes.mem_callsFrom_append.1 ha).elim (ih₁ rfl hbefore pending a) (ih₂ hl hnone pending a)

theorem le_pendingOn (h : Recorded k es o) (text : Text) : ∀ pending, ∀ a ∈ callsFrom pending es,
    pendingOn text pending ≤ pendingOn text a.within := by
  have hcons : ∀ (e : Expr) (pending : List Expr),
      pendingOn text pending ≤ pendingOn text (e :: pending) := fun e pending =>
    List.Sublist.countP_le (List.sublist_cons_self e pending)
  induction h with
  | nothing => simp [callsFrom]
  | cut => simp [callsFrom]
  | other hother => simp [callsFrom_other hother, callsFrom]
  | found _ =>
    intro pending a ha
    obtain rfl := List.mem_singleton.1 ha
    exact Nat.le_refl _
  | computed _ hes ih =>
    intro pending a ha
    rcases hes.mem_callsFrom_computed.1 ha with ha | rfl
    · exact (hcons _ _).trans (ih _ a ha)
    · exact Nat.le_refl _
  | broken _ _ ih => exact fun pending a ha => (hcons _ _).trans (ih _ a ha)
  | append hes _ ih₁ ih₂ =>
    intro pending a ha
    exact (hes.mem_callsFrom_append.1 ha).elim (ih₁ pending a) (ih₂ pending a)

/-- A call on the way to the value of an expression lies deeper inside
evaluations of its text than the one that has the value. -/
theorem pendingOn_within_ne (h : Recorded k es o) {e : Expr} {pending : List Expr} {a : Call}
    (ha : a ∈ callsFrom (e :: pending) es) :
    pendingOn e.render a.within ≠ pendingOn e.render pending := by
  have hdeep := h.le_pendingOn e.render (e :: pending) a ha
  rw [pendingOn_cons_self] at hdeep
  exact Nat.ne_of_gt hdeep

/-- What a call on the text has for its value is kept at the end, unless it lies
inside another one. -/
theorem kept_of_outermost (h : Recorded k es o) : ∀ pending, ∀ a ∈ callsFrom pending es,
    a.expr.render = text → pendingOn text a.within = pendingOn text pending →
      ∀ l, o = some l → l.get? text = some a.value := by
  induction h with
  | nothing => simp [callsFrom]
  | cut => simp [callsFrom]
  | other hother => simp [callsFrom_other hother, callsFrom]
  | found hfound =>
    intro pending a ha htext _ l hl
    obtain rfl := List.mem_singleton.1 ha
    rw [← htext, ← Option.some.inj hl]
    exact hfound
  | @computed k l' e v c d es _ hes ih =>
    intro pending a ha htext hnest l hl
    obtain rfl := Option.some.inj hl
    rcases hes.mem_callsFrom_computed.1 ha with ha | rfl
    · have hne : e.render ≠ text := by
        rintro rfl
        exact hes.pendingOn_within_ne ha hnest
      rw [Table.get?_insert_of_ne _ _ hne.symm]
      exact ih _ a ha htext (hnest.trans (pendingOn_cons_of_ne hne _).symm) l' rfl
    · rw [← htext, Table.get?_insert_self]
  | broken _ _ => exact fun _ _ _ _ _ _ hl => nomatch hl
  | append hes hfs ih₁ ih₂ =>
    intro pending a ha htext hnest l hl
    rcases hes.mem_callsFrom_append.1 ha with ha | ha
    · exact (hfs.of_kept (ih₁ pending a ha htext hnest _ rfl)).1 l hl
    · exact ih₂ pending a ha htext hnest l hl

/-- Calls on the text that lie equally deep inside evaluations of it have the
same value. -/
theorem value_eq (h : Recorded k es o) : ∀ pending, ∀ a ∈ callsFrom pending es,
    ∀ b ∈ callsFrom pending es, a.expr.render = text → b.expr.render = text →
      pendingOn text a.within = pendingOn text b.within → a.value = b.value := by
  induction h with
  | nothing => simp [callsFrom]
  | cut => simp [callsFrom]
  | other hother => simp [callsFrom_other hother, callsFrom]
  | found _ =>
    intro pending a ha b hb _ _ _
    rw [List.mem_singleton.1 ha, List.mem_singleton.1 hb]
  | @computed k l e v c d es _ hes ih =>
    intro pending a ha b hb hta htb hnest
    rcases hes.mem_callsFrom_computed.1 ha with ha | rfl <;>
      rcases hes.mem_callsFrom_computed.1 hb with hb | rfl
    · exact ih _ a ha b hb hta htb hnest
    · subst htb
      exact absurd hnest (hes.pendingOn_within_ne ha)
    · subst hta
      exact absurd hnest.symm (hes.pendingOn_within_ne hb)
    · rfl
  | broken _ _ ih => exact fun pending => ih _
  | @append k l o es fs hes hfs ih₁ ih₂ =>
    intro pending a ha b hb hta htb hnest
    -- What the first call on the text leaves behind is what the later ones find.
    have hacross : ∀ x ∈ callsFrom pending es, ∀ y ∈ callsFrom pending fs,
        x.expr.render = text → y.expr.render = text →
          pendingOn text x.within = pendingOn text y.within → x.value = y.value := by
      intro x hx y hy htx hty hxy
      cases hget : l.get? text with
      | none => exact absurd htx (hes.forall_ne_of_not_kept rfl hget pending x hx)
      | some w =>
        obtain ⟨hvalue, hdepth⟩ := (hfs.of_kept hget).2 pending y hy hty
        have hx := hes.kept_of_outermost pending x hx htx (hxy.trans hdepth) l rfl
        exact (Option.some.inj (hget.symm.trans hx)).symm.trans hvalue.symm
    rcases hes.mem_callsFrom_append.1 ha with ha | ha <;>
      rcases hes.mem_callsFrom_append.1 hb with hb | hb
    · exact ih₁ pending a ha b hb hta htb hnest
    · exact hacross a ha b hb hta htb hnest
    · exact (hacross b hb a ha htb hta hnest.symm).symm
    · exact ih₂ pending a ha b hb hta htb hnest

end Recorded

namespace Run

/-- **A text keeps its value within a turn.** In a turn from any context, two
evaluations of the same text that both end with a value, and that lie equally
deep inside evaluations of that text, end with the same value. -/
theorem value_eq_of_nesting_eq {depth : Nat} {source : Text} {c : Context} {a b : Call}
    (ha : a ∈ (turn depth source c).calls) (hb : b ∈ (turn depth source c).calls)
    (htext : a.expr.render = b.expr.render) (hnest : a.nesting = b.nesting) :
    a.value = b.value := by
  obtain ⟨o, h⟩ := recorded_turn depth source c
  rw [Call.nesting, Call.nesting, ← htext] at hnest
  exact h.value_eq [] a ha b hb rfl htext.symm hnest

/-- A symbol that is bound anew between two of its evaluations, which are not
parts of the same list. -/
theorem value_eq_of_nesting_eq_rebound :
    let run := turn depthLimit "(cons (cons (let v 1) v) (let v 2) v)" Context.startup
    let inner : Expr := .list [.sym "cons", .list [.sym "let", .sym "v", .num "1"], .sym "v"]
    let outer : Expr := .list [.sym "cons", inner, .list [.sym "let", .sym "v", .num "2"], .sym "v"]
    let a : Call := ⟨.sym "v", .num "1", [inner, outer]⟩
    let b : Call := ⟨.sym "v", .num "1", [outer]⟩
    (a ∈ run.calls ∧ b ∈ run.calls ∧ a.expr.render = b.expr.render ∧ a.nesting = b.nesting) ∧
      a.value = b.value := by
  intro run inner outer a b
  have ha : a ∈ run.calls := by decide +kernel
  have hb : b ∈ run.calls := by decide +kernel
  have hnest : a.nesting = b.nesting := by decide +kernel
  exact ⟨⟨ha, hb, rfl, hnest⟩, value_eq_of_nesting_eq ha hb rfl hnest⟩

/-- After `a` was bound to a list that binds `a` itself, `a` has one value inside
its own evaluation and another one outside. -/
theorem exists_calls_ne :
    let c := (turn depthLimit "(let a (let c (cons (let a 1) (let b a))))" Context.startup).context
    let run := turn depthLimit "(eq a b)" c
    run.outcome = .ok .no ∧
      ¬ ∀ x ∈ run.calls, ∀ y ∈ run.calls, x.expr.render = y.expr.render → x.value = y.value := by
  intro c run
  refine ⟨?_, ?_⟩ <;> decide +kernel

end Run

end SpliceLisp
