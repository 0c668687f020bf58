/-
# Turns are isolated

A session can be asked for the value of a text or for what it says to a line
(`Request`); either way the text is taken as a turn (`Context.serve`), and the answer
is the outcome of that, or what is said to it. Of all that happened before, only the
globals reach the turn: nothing is kept from one turn to the next, however the turns
end (`cache_afterRequests`).

A turn whose text cannot be read does nothing. Any other evaluates its expressions
up to the first that has no value (`evaluateInOrder_cases`). Nothing that was bound
on the way is undone: the globals afterwards are those before with the bindings of
the record made in order, also if the turn stops (`globals_turn`). Together that is
`serve_isolated`.

Key definitions: `Request`, `Context.serve`, `Context.afterRequests`, `Evaluated`,
`Run.bindings`.
Key theorems: `evaluateInOrder_cases`, `globals_turn`, `serve_isolated`.
-/
import Mathlib
import SpliceLisp.Proofs.Retrace

namespace SpliceLisp

open Eval

/-! ### Bindings in the record -/

/-- The name that an event binds, and to what. -/
def Event.binding? : Event → Option (Text × Expr)
  | .bound name value => some (name, value)
  | _ => none

def Run.bindings {α : Type} (r : Run α) : List (Text × Expr) := r.events.filterMap Event.binding?

theorem Context.globals_after (c : Context) (es : List Event) :
    (c.after es).globals = c.globals.insertAll (es.filterMap Event.binding?) := by
  induction es generalizing c with
  | nil => rfl
  | cons event es ih =>
    rw [after_cons, ih]
    cases event <;> rfl

/-- The globals after a turn are those before with the bindings made that the turn
records, however it ends. -/
theorem globals_turn (depth : Nat) (source : Text) (c : Context) :
    (turn depth source c).context.globals = c.globals.insertAll (turn depth source c).bindings :=
  (congrArg Context.globals (context_evaluateText depth source c)).trans (c.globals_after _)

/-! ### Expressions in order -/

/-- From the context `c` on the expressions have the values, one after the other, and
`d` is the context afterwards. -/
inductive Evaluated (depth : Nat) : Context → List Expr → List Expr → Context → Prop
  | nil {c : Context} : Evaluated depth c [] [] c
  | cons {c d : Context} {e v : Expr} {es vs : List Expr} :
      (evaluate depth e c).outcome = .ok v →
      Evaluated depth (evaluate depth e c).context es vs d →
      Evaluated depth c (e :: es) (v :: vs) d

/-- All expressions have values, the last of which is the result, or the first one
without a value ends the evaluation. -/
theorem evaluateInOrder_cases (depth : Nat) : ∀ (es : List Expr) (last : Expr) (c : Context),
    (∃ vs d, Evaluated depth c es vs d ∧
      (evaluateInOrder depth last es c).outcome = .ok (vs.getLastD last) ∧
      (evaluateInOrder depth last es c).context = d) ∨
    ∃ done e rest vs d s, es = done ++ e :: rest ∧ Evaluated depth c done vs d ∧
      (evaluate depth e d).outcome = .error s ∧
      (evaluateInOrder depth last es c).outcome = .error s ∧
      (evaluateInOrder depth last es c).context = (evaluate depth e d).context
  | [], _, c => Or.inl ⟨[], c, .nil, rfl, rfl⟩
  | e :: es, last, c => by
    cases hrun : evaluate depth e c with
    | mk outcome d events =>
    cases outcome with
    | error s =>
      have hstop : evaluateInOrder depth last (e :: es) c = ⟨.error s, d, events⟩ := bind_error hrun
      refine Or.inr ⟨[], e, es, [], c, s, rfl, .nil, ?_, ?_, ?_⟩
      · rw [hrun]
      · rw [hstop]
      · rw [hstop, hrun]
    | ok v =>
      have hon : evaluateInOrder depth last (e :: es) c =
          ⟨(evaluateInOrder depth v es d).outcome, (evaluateInOrder depth v es d).context,
            events ++ (evaluateInOrder depth v es d).events⟩ := bind_ok hrun
      have hfirst : (evaluate depth e c).outcome = .ok v := by rw [hrun]
      have hcontext : (evaluate depth e c).context = d := by rw [hrun]
      rw [hon]
      rcases evaluateInOrder_cases depth es v d with
        ⟨vs, d', hvs, houtcome, hd'⟩ | ⟨done, f, rest, vs, d', s, hes, hvs, hf, houtcome, hd'⟩
      · refine Or.inl ⟨v :: vs, d', .cons hfirst (hcontext ▸ hvs), ?_, hd'⟩
        rw [List.getLastD_cons]
        exact houtcome
      · exact Or.inr ⟨e :: done, f, rest, v :: vs, d', s, congrArg (e :: ·) hes,
          .cons hfirst (hcontext ▸ hvs), hf, houtcome, hd'⟩

/-! ### A whole text -/

theorem evaluateText_of_fault (depth : Nat) {source : Text} {f : Fault}
    (h : (Expr.readAll source).fault = some f) (c : Context) :
    evaluateText depth source c = ⟨.error (.fault f), c, []⟩ := by
  simp only [evaluateText, h]
  rfl

theorem evaluateText_of_read (depth : Nat) {source : Text}
    (h : (Expr.readAll source).fault = none) (c : Context) :
    evaluateText depth source c = evaluateInOrder depth .nil (Expr.readAll source).exprs c := by
  simp only [evaluateText, h]

theorem Expr.readAll_of_blank {source : Text} (h : source.all Text.isBlank = true) :
    Expr.readAll source = ⟨[], none⟩ := by
  have hscan : Lexeme.scan source = ⟨[], none⟩ := by
    have hblanks := Lexeme.scanFrom_blanks [] 0 h
    rwa [List.append_nil] at hblanks
  rw [readAll, hscan]
  rfl

/-! ### Requests -/

/-- What a session can be asked: the value of a text, or what it says to a line. -/
inductive Request where
  | value (source : Text)
  | reply (line : Text)

/-- What a session answers: the value or why there is none, or what it says unless it
ends. -/
inductive Response where
  | value (outcome : Except Stop Expr)
  | reply (text : Option Text)
deriving DecidableEq

def Request.text : Request → Text
  | value source => source
  | reply line => line

namespace Context

/-- The answer to a request, and the context afterwards. -/
def serve (depth : Nat) (c : Context) : Request → Response × Context
  | .value source => (.value (turn depth source c).outcome, (turn depth source c).context)
  | .reply line => (.reply (answer c line depth).reply, (answer c line depth).context)

/-- The context after a row of requests, whatever the answers. -/
def afterRequests (depth : Nat) (c : Context) (rs : List Request) : Context :=
  rs.foldl (fun c r => (c.serve depth r).2) c

theorem context_serve (depth : Nat) (c : Context) (r : Request) :
    (c.serve depth r).2 = (turn depth r.text c).context := by
  cases r <;> rfl

theorem afterRequests_eq (depth : Nat) (c : Context) (rs : List Request) :
    c.afterRequests depth rs = c.afterTurns depth (rs.map Request.text) := by
  simp only [afterRequests, context_serve, afterTurns, List.foldl_map]

/-- Between two requests nothing is kept. -/
theorem cache_afterRequests (depth : Nat) {c : Context} (hc : c.cache = ∅) (rs : List Request) :
    (c.afterRequests depth rs).cache = ∅ := by
  rw [afterRequests_eq]
  exact cache_afterTurns depth hc _

theorem eq_of_globals_eq {c d : Context} (hc : c.cache = ∅) (hd : d.cache = ∅)
    (h : c.globals = d.globals) : c = d := by
  cases c
  cases d
  simp_all

/-- What is said to a line, by the outcome of its turn. -/
theorem serve_reply (depth : Nat) (c : Context) (line : Text) :
    (∀ v, (turn depth line c).outcome = .ok v →
      (c.serve depth (.reply line)).1 = .reply (some ("> " ++ v.render))) ∧
    (∀ f, (turn depth line c).outcome = .error (.fault f) →
      (c.serve depth (.reply line)).1 = .reply (some ("error: " ++ f.detail))) ∧
    ((turn depth line c).outcome = .error .tooDeep → (c.serve depth (.reply line)).1 =
      .reply (some ("error: maximum recursion depth exceeded." : Text))) ∧
    ((turn depth line c).outcome = .error .quit → (c.serve depth (.reply line)).1 = .reply none) := by
  have hsay : ∀ {outcome}, (turn depth line c).outcome = outcome →
      (c.serve depth (.reply line)).1 = .reply (reply outcome) := by
    rintro _ rfl
    rfl
  exact ⟨fun v h => hsay h, fun f h => hsay h, fun h => hsay h, fun h => hsay h⟩

/-- **Turns are isolated.** Let a session begin with nothing kept, and let any
requests come before a request `r`, whatever they led to. The text of `r` is then taken
as a turn. If its value is asked for, the answer is the outcome of that turn: the value
or why there is none. If it is a line, the answer is what is to be said: the value's
text after `> `, the text of what is wrong, that evaluations were nested too deep, or
nothing where the session is to end.

Before `r` and after it nothing is kept. The outcome and the context afterwards are
the same in any session that has the same globals at that point, if it is asked
about the same text. If the text cannot be read to its end, that is the outcome and
the globals stay as they are. Otherwise its expressions are evaluated in order: all
have values and the outcome is the last of them, or the first one that has none
decides the outcome. The globals afterwards are those before with all bindings made
that the turn came to, also if it stops after them. A blank text has the empty
value. -/
theorem serve_isolated (depth : Nat) {c : Context} (hc : c.cache = ∅) (earlier : List Request)
    (r : Request) :
    let before := c.afterRequests depth earlier
    let outcome := (turn depth r.text before).outcome
    let response := (before.serve depth r).1
    let after := (before.serve depth r).2
    let reading := Expr.readAll r.text
    (∀ source, r = .value source → response = .value outcome) ∧
    (∀ line, r = .reply line →
      (∀ v, outcome = .ok v → response = .reply (some ("> " ++ v.render))) ∧
      (∀ f, outcome = .error (.fault f) → response = .reply (some ("error: " ++ f.detail))) ∧
      (outcome = .error .tooDeep →
        response = .reply (some ("error: maximum recursion depth exceeded." : Text))) ∧
      (outcome = .error .quit → response = .reply none)) ∧
    (before.cache = ∅ ∧ after.cache = ∅) ∧
    (∀ (c' : Context) (earlier' : List Request) (r' : Request), c'.cache = ∅ →
      let before' := c'.afterRequests depth earlier'
      before'.globals = before.globals → r'.text = r.text →
        (turn depth r'.text before').outcome = outcome ∧ (before'.serve depth r').2 = after) ∧
    (∀ f, reading.fault = some f →
      outcome = .error (.fault f) ∧ after.globals = before.globals) ∧
    (reading.fault = none →
      (∃ vs d, Evaluated depth before reading.exprs vs d ∧
        outcome = .ok (vs.getLastD .nil) ∧ after.globals = d.globals) ∨
      ∃ done e rest vs d s, reading.exprs = done ++ e :: rest ∧ Evaluated depth before done vs d ∧
        (evaluate depth e d).outcome = .error s ∧ outcome = .error s ∧
        after.globals = (evaluate depth e d).context.globals) ∧
    after.globals = before.globals.insertAll (turn depth r.text before).bindings ∧
    (r.text.all Text.isBlank = true →
      outcome = .ok .nil ∧ after.globals = before.globals) := by
  intro before outcome response after reading
  have hbefore : before.cache = ∅ := cache_afterRequests depth hc earlier
  have hafter : after = (turn depth r.text before).context := context_serve depth before r
  have hrun : ∀ run, evaluateText depth r.text before = run →
      outcome = run.outcome ∧ after.globals = run.context.globals := by
    rintro _ rfl
    exact ⟨rfl, (congrArg Context.globals hafter).trans rfl⟩
  refine ⟨?_, ?_, ⟨hbefore, by rw [hafter, cache_turn]⟩, ?_,
    fun f hf => hrun _ (evaluateText_of_fault depth hf before), fun hf => ?_,
    (congrArg Context.globals hafter).trans (globals_turn depth r.text before), fun hblank => ?_⟩
  · rintro source rfl
    rfl
  · rintro line rfl
    exact serve_reply depth before line
  · intro c' earlier' r' hc' before' hglobals htext
    have hsame : before' = before :=
      eq_of_globals_eq (cache_afterRequests depth hc' earlier') hbefore hglobals
    rw [context_serve, hsame, htext, hafter]
    exact ⟨rfl, rfl⟩
  · obtain ⟨houtcome, hglobals⟩ := hrun _ (evaluateText_of_read depth hf before)
    rw [houtcome, hglobals]
    rcases evaluateInOrder_cases depth reading.exprs .nil before with
      ⟨vs, d, hvs, hlast, hd⟩ | ⟨done, e, rest, vs, d, s, hes, hvs, he, hstop, hd⟩
    · exact Or.inl ⟨vs, d, hvs, hlast, by rw [hd]⟩
    · exact Or.inr ⟨done, e, rest, vs, d, s, hes, hvs, he, hstop, by rw [hd]⟩
  · have hempty : reading = ⟨[], none⟩ := Expr.readAll_of_blank hblank
    have hnone : reading.fault = none := by rw [hempty]
    have hexprs : reading.exprs = [] := by rw [hempty]
    have hdone := evaluateText_of_read depth hnone before
    rw [hexprs] at hdone
    exact hrun _ hdone

/-- After a turn that stops behind a binding, one that is nested too deep and one
that ends the session, a line that would bind the name anew but is not complete. -/
theorem serve_isolated_incomplete :
    let c := startup
    let earlier : List Request := [.reply "(let a 1) (undefined)",
      .value "(let f (lambda (k) (f k))) (f 1)", .reply "(quit)"]
    let line : Text := "(let a 2) (1 2"
    let before := c.afterRequests depthLimit earlier
    (c.cache = ∅ ∧ (Expr.readAll line).fault = some .unclosedList) ∧
      before.globals.get? "a" = some (.num "1") ∧
      (before.serve depthLimit (.value line)).1 = .value (.error (.fault .unclosedList)) ∧
      (before.serve depthLimit (.reply line)).1 =
        .reply (some ("error: expected closing ')'." : Text)) ∧
      (before.serve depthLimit (.reply line)).2.globals = before.globals := by
  intro c earlier line before
  have hc : c.cache = ∅ := rfl
  have hread : (Expr.readAll line).fault = some .unclosedList := by decide +kernel
  have hbound : before.globals.get? "a" = some (.num "1") := by decide +kernel
  obtain ⟨hvalue, -, -, -, hfault, -⟩ := serve_isolated depthLimit hc earlier (.value line)
  obtain ⟨-, hreply, -, -, hfault', -⟩ := serve_isolated depthLimit hc earlier (.reply line)
  obtain ⟨houtcome, hglobals⟩ := hfault' _ hread
  refine ⟨⟨hc, hread⟩, hbound, ?_, (hreply line rfl).2.1 _ houtcome, hglobals⟩
  exact (hvalue line rfl).trans (congrArg Response.value (hfault _ hread).1)

end Context

end SpliceLisp
