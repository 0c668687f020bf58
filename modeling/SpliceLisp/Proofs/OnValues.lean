/-
# What primitives make of values

A primitive counts its arguments, takes their values from left to right and works on
these. What it then makes of them needs no context and no evaluation; it is what the
direct meaning says (`Direct.onValues`). So a call with the right number of arguments
is the evaluation of the arguments, followed by a computation on their values
(`Primitive.compute_eq`).

The exceptions are `car` and `cdr`, which evaluate once more what they take out of a
list (`Primitive.compute_car`, `Primitive.compute_cdr`), and `atom`, which looks at its
argument as it is written.

Key theorems: `Primitive.compute_eq`, `Primitive.compute_car`, `Primitive.compute_cdr`,
`arguments_eq_evaluateEach`.
-/
import Mathlib
import SpliceLisp.Proofs.Direct

namespace SpliceLisp

open Eval Direct
open SpliceLisp.Expr (ofBool ofNumber)

/-! ### Sequences of steps -/

namespace Eval

variable {α β : Type}

theorem ofExcept_bind (x : Except Fault α) (f : α → Except Fault β) :
    ofExcept (x >>= f) = ofExcept x >>= fun a => ofExcept (f a) := by
  cases x with
  | ok a => exact (pure_bind a fun a => ofExcept (f a)).symm
  | error s => rfl

theorem ofExcept_ok_bind (a : α) (f : α → Eval β) : ofExcept (.ok a) >>= f = f a := pure_bind a f

/-- What follows an evaluation matters for the values that this can have. -/
theorem bind_congr_of_outcome {m : Eval α} {f g : α → Eval β}
    (h : ∀ c a, (m c).outcome = .ok a → f a = g a) : m >>= f = m >>= g := by
  funext c
  cases hrun : m c with
  | mk outcome d es =>
  cases outcome with
  | ok a => rw [bind_ok hrun, bind_ok hrun, h c a (by rw [hrun])]
  | error s => rw [bind_error hrun, bind_error hrun]

end Eval

/-! ### Arguments -/

section Arguments

variable {ev : Expr → Eval Expr}

theorem argument_of_ne_quote {e : Expr} (h : ∀ t, e ≠ .quote t) : argument ev e = ev e := by
  cases e with
  | quote t => exact absurd rfl (h t)
  | _ => rfl

theorem Direct.Plain.ne_quote {e : Expr} (h : Plain e) (t : Text) : e ≠ .quote t := by
  rintro rfl
  cases h.quoteless

/-- Arguments are evaluated like the items of a list, if none is deferred. -/
theorem arguments_eq_evaluateEach : ∀ {es : List Expr}, (∀ e ∈ es, ∀ t, e ≠ .quote t) →
    arguments ev es = evaluateEach ev es
  | [], _ => rfl
  | e :: es, h => by
    rw [arguments, evaluateEach, argument_of_ne_quote (h e (by simp)),
      arguments_eq_evaluateEach fun d hd => h d (by simp [hd])]

theorem length_of_arguments : ∀ {es vs : List Expr} {c : Context},
    (arguments ev es c).outcome = .ok vs → vs.length = es.length
  | [], _, _, h => by cases h; rfl
  | e :: es, vs, c, h => by
    cases hfirst : argument ev e c with
    | mk outcome d _ =>
    cases outcome with
    | error s => rw [arguments, bind_error hfirst] at h; cases h
    | ok v =>
      cases hrest : arguments ev es d with
      | mk outcome b _ =>
      cases outcome with
      | error s => rw [arguments, bind_ok hfirst, bind_error hrest] at h; cases h
      | ok ws =>
        rw [arguments, bind_ok hfirst, bind_ok hrest] at h
        cases h
        have hlen : ws.length = es.length := length_of_arguments (congrArg Run.outcome hrest)
        rw [List.length_cons, List.length_cons, hlen]

end Arguments

/-! ### Operations on the values -/

theorem Direct.of_finiteNumbers {vs : List Expr} {xs : List Binary64}
    (h : finiteNumbers vs = .ok xs) : xs.length = vs.length ∧ ∀ x ∈ xs, x.isFinite = true := by
  obtain ⟨ys, hys, h⟩ := ok_of_bind h
  split at h
  · next hall =>
    cases h
    exact ⟨length_of_mapM hys, List.all_eq_true.1 hall⟩
  · cases h

namespace Primitive

variable {ev : Expr → Eval Expr} {es : List Expr}

theorem numbers_eq (ev : Expr → Eval Expr) (es : List Expr) :
    numbers ev es = arguments ev es >>= fun vs => ofExcept (finiteNumbers vs) := by
  simp only [numbers, finiteNumbers, ofExcept_bind]
  congr! 4
  split <;> rfl

theorem numbers_bind {m : List Binary64 → Eval Expr} {k : List Binary64 → Except Fault Expr}
    (hm : ∀ xs, xs.length = es.length → (∀ x ∈ xs, x.isFinite = true) → m xs = ofExcept (k xs)) :
    numbers ev es >>= m = arguments ev es >>= fun vs => ofExcept (finiteNumbers vs >>= k) := by
  rw [numbers_eq, bind_assoc]
  refine bind_congr_of_outcome fun c vs hvs => ?_
  rw [ofExcept_bind]
  cases hxs : finiteNumbers vs with
  | error f => rfl
  | ok xs =>
    obtain ⟨hcount, hfinite⟩ := of_finiteNumbers hxs
    rw [ofExcept_ok_bind, ofExcept_ok_bind]
    exact hm xs (hcount.trans (length_of_arguments hvs)) hfinite

theorem booleans_bind {m : List Bool → Eval Expr} {k : List Bool → Except Fault Expr}
    (hm : ∀ bs, bs.length = es.length → m bs = ofExcept (k bs)) :
    booleans ev es >>= m = arguments ev es >>= fun vs => ofExcept (truths vs >>= k) := by
  rw [booleans, bind_assoc]
  refine bind_congr_of_outcome fun c vs hvs => ?_
  rw [ofExcept_bind]
  cases hbs : truths vs with
  | error f => rw [show vs.mapM Expr.toBool = .error f from hbs]; rfl
  | ok bs =>
    rw [show vs.mapM Expr.toBool = .ok bs from hbs, ofExcept_ok_bind, ofExcept_ok_bind]
    exact hm bs ((length_of_mapM hbs).trans (length_of_arguments hvs))

theorem numbers_bind_two {p : Primitive} {m : Binary64 × Binary64 → Eval Expr}
    {f : Binary64 → Binary64 → Except Fault Expr} (hlen : es.length = 2)
    (hm : ∀ a b, a.isFinite = true → b.isFinite = true → m (a, b) = ofExcept (f a b)) :
    (numbers ev es >>= fun xs => defined .unpacking (theTwo xs) >>= m) =
      arguments ev es >>= fun vs => ofExcept (onTwo p f vs) := by
  refine numbers_bind fun xs hcount hfinite => ?_
  obtain ⟨a, b, rfl⟩ := List.length_eq_two.1 (hcount.trans hlen)
  have hrun : (defined .unpacking (theTwo [a, b]) >>= m) = m (a, b) := pure_bind (a, b) m
  rw [hrun]
  exact hm a b (hfinite a (by simp)) (hfinite b (by simp))

theorem quotient_eq {operation : Operation} {fault : Fault} {a b : Binary64}
    {f : Binary64 → Binary64 → Option Binary64} (hf : b.isZero = false → (f a b).isSome = true) :
    (if b.isZero then fail fault else defined operation (f a b) >>= number) =
      ofExcept (if b.isZero then throw fault else ofNumber ((f a b).getD .nan)) := by
  cases hz : b.isZero with
  | true => rfl
  | false =>
    obtain ⟨q, hq⟩ := Option.isSome_iff_exists.1 (hf hz)
    rw [hq]
    exact pure_bind q number

theorem equal_bind {f : Bool → Bool} {k : List Expr → Except Fault Expr} (hlen : es.length = 2)
    (hk : ∀ a b, k [a, b] = .ok (ofBool (f (a.same b)))) :
    (equal ev es >>= fun b => pure (ofBool (f b))) =
      arguments ev es >>= fun vs => ofExcept (k vs) := by
  rw [equal, bind_assoc]
  refine bind_congr_of_outcome fun c vs hvs => ?_
  obtain ⟨a, b, rfl⟩ := List.length_eq_two.1 ((length_of_arguments hvs).trans hlen)
  rw [hk]
  rfl

/-! ### Primitives -/

/-- **A primitive works on the values of its arguments**, if there are as many as it
takes, and it does nothing else. -/
theorem compute_eq {p : Primitive} (hp : p ∉ [car, cdr, atom])
    (harity : p.arityFault? es.length = none) :
    p.compute ev es = arguments ev es >>= fun vs => ofExcept (onValues p vs) := by
  have hexactly : ∀ n, p.arity = .exactly n → es.length = n := fun _ => length_of_exactly harity
  cases p with
  | add => exact numbers_bind fun _ _ _ => rfl
  | sub =>
    refine numbers_bind fun xs hcount _ => ?_
    have hatLeast : 2 ≤ es.length := length_of_atLeast harity rfl
    cases xs with
    | nil => rw [← hcount] at hatLeast; cases hatLeast
    | cons a rest => exact pure_bind (a, rest) fun p => number (p.1.sub (Binary64.sum p.2))
  | mul => exact numbers_bind_two (hexactly 2 rfl) fun _ _ _ _ => rfl
  | div =>
    refine numbers_bind_two (hexactly 2 rfl) fun a b ha hb => ?_
    exact quotient_eq fun hz => (Binary64.isSome_of_isFinite ha hb hz).1
  | mod =>
    refine numbers_bind_two (hexactly 2 rfl) fun a b ha hb => ?_
    exact quotient_eq fun hz => (Binary64.isSome_of_isFinite ha hb hz).2
  | percent =>
    refine numbers_bind_two (hexactly 2 rfl) fun a b ha hb => ?_
    exact quotient_eq fun hz => (Binary64.isSome_of_isFinite ha hb hz).2
  | less => exact numbers_bind_two (hexactly 2 rfl) fun _ _ _ _ => rfl
  | greater => exact numbers_bind_two (hexactly 2 rfl) fun _ _ _ _ => rfl
  | and => exact booleans_bind fun _ _ => rfl
  | or => exact booleans_bind fun _ _ => rfl
  | not =>
    refine booleans_bind fun bs hcount => ?_
    obtain ⟨b, rfl⟩ := List.length_eq_one_iff.1 (hcount.trans (hexactly 1 rfl))
    rfl
  | cons => rfl
  | car => simp at hp
  | cdr => simp at hp
  | atom => simp at hp
  | eq => exact equal_bind (f := id) (hexactly 2 rfl) fun _ _ => rfl
  | neq => exact equal_bind (f := Bool.not) (hexactly 2 rfl) fun _ _ => rfl

theorem listItems_one (e : Expr) : listItems ev [e] = do return (← ev e).itemsOrNone := by
  have hone : (defined .unpacking (theOne [e]) : Eval Expr) = pure e := rfl
  rw [listItems, hone, pure_bind]
  congr
  funext v
  cases v <;> rfl

/-- The first item of a list is evaluated once more. -/
theorem compute_car (e : Expr) : compute ev [e] car = ev e >>= fun v =>
    match v.itemsOrNone with
    | [] => return .nil
    | first :: _ => argument ev first := by
  rw [compute, listItems_one, bind_assoc]
  exact bind_congr fun v => pure_bind v.itemsOrNone _

/-- The items after the first are evaluated once more. -/
theorem compute_cdr (e : Expr) : compute ev [e] cdr = ev e >>= fun v =>
    match v.itemsOrNone with
    | [] => return .nil
    | _ :: rest => return .list (← arguments ev rest) := by
  rw [compute, listItems_one, bind_assoc]
  exact bind_congr fun v => pure_bind v.itemsOrNone _

theorem onValues_car (v : Expr) : onValues car [v] = .ok (v.itemsOrNone.headD .nil) := by
  rcases v with _ | _ | _ | _ | ⟨_ | ⟨first, rest⟩⟩ | _ <;> rfl

theorem onValues_cdr (v : Expr) : onValues cdr [v] =
    .ok (if v.itemsOrNone.isEmpty then .nil else .list v.itemsOrNone.tail) := by
  rcases v with _ | _ | _ | _ | ⟨_ | ⟨first, rest⟩⟩ | _ <;> rfl

theorem compute_atom (e : Expr) : compute ev [e] atom = ofExcept (onValues atom [e]) := by
  have hall : [e].all (fun d => !d.isList) = !e.isList := by simp
  change pure (ofBool (!e.isList)) = Eval.ofExcept (.ok (ofBool ([e].all fun d => !d.isList)))
  rw [hall]
  rfl

end Primitive

end SpliceLisp
