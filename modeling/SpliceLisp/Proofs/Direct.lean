/-
# The first-order language, directly

The part of the language without functions, bindings and deferred texts has a
meaning that needs no context beyond the global constants, no text and no
second evaluation: an expression has a value or a fault by its structure
(`Direct.value`). A call counts its arguments, takes their values from left to
right and looks at them afterwards; `cond` looks at one clause after the other;
any other list is the list of its values.

`Direct.FirstOrder` says which expressions belong to this part. Their values
are constants and lists of these (`Direct.Datum`), which are their own values.

Key definitions: `Direct.FirstOrder`, `Direct.value`, `Direct.onValues`,
`Direct.Standard`.
Key theorems: `Direct.datum_of_value`, `Direct.value_of_datum`.
-/
import Mathlib
import SpliceLisp.Evaluation.Expressions
import SpliceLisp.Proofs.Defined
import SpliceLisp.Proofs.NumberText
import SpliceLisp.Proofs.Substitution

namespace SpliceLisp

namespace Direct

open SpliceLisp.Expr (yes no ofBool ofNumber toBool toNumber)

/-! ### Which expressions -/

/-- A number, a string or one of the symbols `#t`, `#f` and `#nil`. -/
def Constant : Expr → Prop
  | .num t => Lexeme.Kind.admits .number t = true
  | .str t => Lexeme.Kind.admits .string t = true
  | .sym n => .sym n ∈ [yes, no, Expr.nil]
  | _ => False

/-- The expression is as a reader makes it, nothing in it is deferred, and the
symbol `lambda` does not occur. -/
structure Plain (e : Expr) : Prop where
  readable : e.Readable
  quoteless : e.holdsNoQuote = true
  functionless : Expr.lambda ∉ e.leaves

/-- The expressions of the first-order language. A symbol stands for the
constant it is bound to. A clause of `cond` that is no pair may be anything. -/
inductive FirstOrder (g : Table) : Expr → Prop
  | num {t : Text} : FirstOrder g (.num t)
  | str {t : Text} : FirstOrder g (.str t)
  | sym {n : Text} {v : Expr} : g.get? n = some v → Constant v → FirstOrder g (.sym n)
  | data {es : List Expr} : (∀ e ∈ es, FirstOrder g e) → FirstOrder g (.list es)
  | call {p : Primitive} {es : List Expr} : (∀ e ∈ es, FirstOrder g e) →
      FirstOrder g (.list (.sym p.name :: es))
  | cond {cs : List Expr} : (∀ test result, .list [test, result] ∈ cs → FirstOrder g test) →
      (∀ test result, .list [test, result] ∈ cs → FirstOrder g result) →
      FirstOrder g (.list (.sym Form.cond.name :: cs))

/-- The global bindings that the first-order language relies on. -/
structure Standard (g : Table) : Prop where
  primitive : ∀ p : Primitive, g.get? p.name = some (.func (.primitive p))
  cond : g.get? Form.cond.name = some (.func (.form .cond))
  constant : ∀ v ∈ [yes, no, Expr.nil], g.get? v.render = some v

/-- A constant, or a list of such data. -/
inductive Datum : Expr → Prop
  | constant {v : Expr} : Constant v → Datum v
  | list {vs : List Expr} : (∀ v ∈ vs, Datum v) → Datum (.list vs)

/-! ### What they mean -/

/-- What a primitive says to another number of arguments than it takes. -/
def countFault (p : Primitive) : Fault :=
  match p.arity with
  | .exactly count => .notExactly p.operator count
  | .atLeast count => .notAtLeast p.operator count

def finiteNumbers (vs : List Expr) : Except Fault (List Binary64) := do
  let xs ← vs.mapM toNumber
  if xs.all Binary64.isFinite then return xs else throw .outOfRange

def truths (vs : List Expr) : Except Fault (List Bool) := vs.mapM toBool

/-- The result of an operation on two finite numbers. -/
def onTwo (p : Primitive) (f : Binary64 → Binary64 → Except Fault Expr) (vs : List Expr) :
    Except Fault Expr := do
  match ← finiteNumbers vs with
  | [a, b] => f a b
  | _ => throw (countFault p)

/-- What a primitive makes of the values of its arguments. -/
def onValues (p : Primitive) (vs : List Expr) : Except Fault Expr :=
  match p with
  | .add => do ofNumber (Binary64.sum (← finiteNumbers vs))
  | .sub => do
    match ← finiteNumbers vs with
    | a :: rest => ofNumber (a.sub (Binary64.sum rest))
    | [] => throw (countFault .sub)
  | .mul => onTwo .mul (fun a b => ofNumber (a.mul b)) vs
  | .div => onTwo .div (fun a b =>
      if b.isZero then throw .divisionByZero else ofNumber ((a.div? b).getD .nan)) vs
  | .mod | .percent => onTwo .mod (fun a b =>
      if b.isZero then throw .moduloByZero else ofNumber ((a.rem? b).getD .nan)) vs
  | .less => onTwo .less (fun a b => return ofBool (a.less b)) vs
  | .greater => onTwo .greater (fun a b => return ofBool (b.less a)) vs
  | .and => do return ofBool ((← truths vs).all id)
  | .or => do return ofBool ((← truths vs).any id)
  | .not => do
    match ← truths vs with
    | [b] => return ofBool (!b)
    | _ => throw (countFault .not)
  | .cons => return .list vs
  | .car =>
    match vs with
    | [.list (first :: _)] => return first
    | _ => return Expr.nil
  | .cdr =>
    match vs with
    | [.list (_ :: rest)] => return .list rest
    | _ => return Expr.nil
  | .atom => return ofBool (vs.all fun v => !v.isList)
  | .eq =>
    match vs with
    | [a, b] => return ofBool (a.same b)
    | _ => throw (countFault .eq)
  | .neq =>
    match vs with
    | [a, b] => return ofBool (!a.same b)
    | _ => throw (countFault .neq)

/-- The primitives that give numbers. -/
def arithmetic : List Primitive := [.add, .sub, .mul, .div, .mod, .percent]

/-- A primitive counts its arguments before they have values. `atom` looks at
them as they are written. -/
def perform (p : Primitive) (es : List Expr) (values : Except Fault (List Expr)) :
    Except Fault Expr :=
  match p.arityFault? es.length with
  | some f => throw f
  | none => if p = .atom then onValues .atom es else do onValues p (← values)

/-- What a list is a call of, if its head names a primitive or a form. -/
def operator? : Expr → Option Procedure
  | .sym n => if (Procedure.ofName n) ∈ Procedure.builtins then some (Procedure.ofName n) else none
  | _ => none

mutual

/-- The value of an expression. -/
def value (g : Table) : Expr → Except Fault Expr
  | .num t => return .num t
  | .str t => return .str t
  | .sym n => (g.get? n).elim (throw (.unbound n)) pure
  | .list es => listValue g es
  | .quote _ => throw .notAnExpression
  | .func _ => throw .notAnExpression

/-- The value of a list. -/
def listValue (g : Table) : List Expr → Except Fault Expr
  | [] => return .list []
  | head :: tail =>
    match operator? head with
    | some (.primitive p) => perform p tail (values g tail)
    | some (.form .cond) => if tail.isEmpty then throw (.formArity .cond) else choice g tail
    | _ => do
      let v ← value g head
      let vs ← values g tail
      return .list (v :: vs)

/-- The values of expressions, from left to right. -/
def values (g : Table) : List Expr → Except Fault (List Expr)
  | [] => return []
  | e :: es => do
    let v ← value g e
    let vs ← values g es
    return v :: vs

/-- The value of the first result whose test is true. -/
def choice (g : Table) : List Expr → Except Fault Expr
  | [] => return Expr.nil
  | .list [test, result] :: rest => do
    if (← value g test).isTrue then value g result else choice g rest
  | _ :: _ => throw .malformedClause

end

/-! ### Plain expressions and data -/

theorem Plain.items {es : List Expr} (h : Plain (.list es)) : ∀ e ∈ es, Plain e := by
  intro e he
  refine ⟨h.readable.items e he, Expr.holdsNoQuote_list.1 h.quoteless e he, fun hl => ?_⟩
  apply h.functionless
  rw [Expr.leaves_list]
  exact List.mem_flatMap.2 ⟨e, he, hl⟩

theorem plain_list {es : List Expr} (h : ∀ e ∈ es, Plain e) : Plain (.list es) := by
  refine ⟨.list fun e he => (h e he).readable, ?_, ?_⟩
  · exact Expr.holdsNoQuote_list.2 fun e he => (h e he).quoteless
  · rw [Expr.leaves_list, List.mem_flatMap]
    rintro ⟨e, he, hl⟩
    exact (h e he).functionless hl

/-- No list in a plain expression is headed by `lambda`. -/
theorem Plain.isFunction {e : Expr} (h : Plain e) : e.isFunction = false := by
  rcases e with _ | _ | _ | _ | ⟨_ | ⟨head, tail⟩⟩ | _
  case list.cons =>
    rw [Expr.isFunction, ← Bool.not_eq_true, Expr.isLambda_iff]
    rintro rfl
    refine h.functionless ?_
    rw [Expr.leaves_list]
    simp [Expr.leaves, Expr.lambda]
  all_goals rfl

theorem Constant.plain {v : Expr} (h : Constant v) : Plain v := by
  cases v with
  | num t => exact ⟨.num h, rfl, by simp [Expr.leaves, Expr.lambda]⟩
  | str t => exact ⟨.str h, rfl, by simp [Expr.leaves, Expr.lambda]⟩
  | sym n =>
    rcases List.mem_cons.1 h with h | h
    · exact h ▸ ⟨.sym (by decide +kernel), rfl, by decide +kernel⟩
    · rcases List.mem_cons.1 h with h | h
      · exact h ▸ ⟨.sym (by decide +kernel), rfl, by decide +kernel⟩
      · exact List.mem_singleton.1 h ▸ ⟨.sym (by decide +kernel), rfl, by decide +kernel⟩
  | _ => exact h.elim

theorem Datum.plain {v : Expr} (h : Datum v) : Plain v := by
  induction h with
  | constant h => exact h.plain
  | list _ ih => exact plain_list ih

theorem Datum.items {vs : List Expr} (h : Datum (.list vs)) : ∀ v ∈ vs, Datum v := by
  cases h with
  | constant h => exact h.elim
  | list h => exact h

theorem Datum.ne_func {v : Expr} (h : Datum v) (p : Procedure) : v ≠ .func p := by
  rintro rfl
  cases h with
  | constant h => exact h.elim

/-! ### Operators -/

variable {g : Table}

theorem operator?_name {q : Procedure} (hq : q ∈ Procedure.builtins) :
    operator? (.sym q.name) = some q := by
  have hof : Procedure.ofName q.name = q := by
    revert q
    decide
  rw [operator?, hof, if_pos hq]

theorem eq_of_operator? {e : Expr} {q : Procedure} (h : operator? e = some q) : e = .sym q.name := by
  cases e with
  | sym n =>
    simp only [operator?] at h
    split at h
    · rw [← Option.some.inj h, Procedure.name_ofName]
    · cases h
  | _ => cases h

theorem FirstOrder.operator? (hg : Standard g) {e : Expr} (h : FirstOrder g e) :
    (∀ p : Primitive, Direct.operator? e ≠ some (.primitive p)) ∧
      Direct.operator? e ≠ some (.form .cond) := by
  have hno : ∀ q : Procedure, g.get? q.name = some (.func q) → Direct.operator? e ≠ some q := by
    intro q hq ho
    obtain rfl := eq_of_operator? ho
    cases h with
    | sym hv hc =>
      rw [hq] at hv
      obtain rfl := Option.some.inj hv
      exact hc
  exact ⟨fun p => hno _ (hg.primitive p), hno _ hg.cond⟩

theorem mem_builtins_primitive (p : Primitive) : Procedure.primitive p ∈ Procedure.builtins := by
  cases p <;> decide

/-! ### Values -/

theorem value_sym {n : Text} {v : Expr} (h : g.get? n = some v) : value g (.sym n) = .ok v := by
  rw [value, h]
  rfl

theorem value_call (p : Primitive) (es : List Expr) :
    value g (.list (.sym p.name :: es)) = perform p es (values g es) := by
  have hop : operator? (.sym p.name) = some (.primitive p) :=
    operator?_name (mem_builtins_primitive p)
  rw [value, listValue]
  split
  · next q h => rw [h] at hop; cases hop; rfl
  · next h => rw [h] at hop; cases hop
  · next hne _ => exact absurd hop (hne p)

theorem value_cond (cs : List Expr) : value g (.list (.sym Form.cond.name :: cs)) =
    if cs.isEmpty then throw (.formArity .cond) else choice g cs := by
  have hop : operator? (.sym Form.cond.name) = some (.form .cond) := by decide
  rw [value, listValue]
  split
  · next q h => rw [h] at hop; cases hop
  · rfl
  · next hne => exact absurd hop hne

theorem value_data (hg : Standard g) {es : List Expr} (h : ∀ e ∈ es, FirstOrder g e) :
    value g (.list es) = do return .list (← values g es) := by
  cases es with
  | nil => rfl
  | cons head tail =>
    obtain ⟨hp, hc⟩ := (h head (by simp)).operator? hg
    rw [value, listValue]
    split
    · next q hq => exact absurd hq (hp q)
    · next hq => exact absurd hq hc
    · simp only [values, bind_assoc, pure_bind]

theorem values_of_forall {es : List Expr} (h : ∀ e ∈ es, value g e = .ok e) :
    values g es = .ok es := by
  induction es with
  | nil => rfl
  | cons e es ih =>
    rw [values, h e (by simp), ih fun d hd => h d (by simp [hd])]
    rfl

theorem length_of_values : ∀ {es vs : List Expr}, values g es = .ok vs → vs.length = es.length
  | [], vs, h => by cases h; rfl
  | e :: es, vs, h => by
    rw [values] at h
    obtain ⟨v, -, h⟩ := ok_of_bind h
    obtain ⟨ws, hws, h⟩ := ok_of_bind h
    cases h
    rw [List.length_cons, List.length_cons, length_of_values hws]

theorem forall_of_values {P : Expr → Prop} : ∀ {es vs : List Expr},
    (∀ e ∈ es, ∀ v, value g e = .ok v → P v) → values g es = .ok vs → ∀ v ∈ vs, P v
  | [], vs, _, h => by cases h; simp
  | e :: es, vs, hes, h => by
    rw [values] at h
    obtain ⟨w, hw, h⟩ := ok_of_bind h
    obtain ⟨ws, hws, h⟩ := ok_of_bind h
    cases h
    have hrest := forall_of_values (fun d hd => hes d (by simp [hd])) hws
    intro v hv
    rcases List.mem_cons.1 hv with rfl | hv
    · exact hes e (by simp) v hw
    · exact hrest v hv

theorem Datum.firstOrder (hg : Standard g) {v : Expr} (h : Datum v) : FirstOrder g v := by
  induction h with
  | @constant v h =>
    cases v with
    | num t => exact .num
    | str t => exact .str
    | sym n => exact .sym (hg.constant _ h) h
    | _ => exact h.elim
  | list _ ih => exact .data ih

/-- Data are their own values. -/
theorem value_of_datum (hg : Standard g) {v : Expr} (h : Datum v) : value g v = .ok v := by
  induction h with
  | @constant v h =>
    cases v with
    | num t => rfl
    | str t => rfl
    | sym n => exact value_sym (hg.constant _ h)
    | _ => exact h.elim
  | @list vs h ih =>
    rw [value_data hg fun v hv => (h v hv).firstOrder hg, values_of_forall ih]
    rfl

/-! ### Values are data -/

theorem datum_ofBool (b : Bool) : Datum (ofBool b) := by
  cases b with
  | true => exact .constant (by simp : yes ∈ [yes, no, Expr.nil])
  | false => exact .constant (by simp : no ∈ [yes, no, Expr.nil])

theorem datum_nil : Datum Expr.nil := .constant (by simp : Expr.nil ∈ [yes, no, Expr.nil])

theorem datum_of_ofNumber {x : Binary64} {v : Expr} (h : ofNumber x = .ok v) : Datum v := by
  obtain ⟨t, rfl, ht⟩ := Expr.readable_of_ofNumber h
  exact .constant ht

theorem of_onTwo {p : Primitive} {f : Binary64 → Binary64 → Except Fault Expr}
    {vs : List Expr} {v : Expr} {P : Prop} (hf : ∀ a b, f a b = .ok v → P)
    (h : onTwo p f vs = .ok v) : P := by
  obtain ⟨xs, -, h⟩ := ok_of_bind h
  split at h
  · exact hf _ _ h
  · cases h

/-- What arithmetic gives is the number that writes a double. -/
theorem exists_ofNumber_of_onValues {p : Primitive} (hp : p ∈ arithmetic) {vs : List Expr}
    {v : Expr} (h : onValues p vs = .ok v) : ∃ x, ofNumber x = .ok v := by
  have hquotient : ∀ (fault : Fault) (a b : Binary64) (f : Binary64 → Binary64 → Option Binary64),
      (if b.isZero then throw fault else ofNumber ((f a b).getD .nan)) = .ok v →
        ∃ x, ofNumber x = .ok v := by
    intro fault a b f hq
    split at hq
    · cases hq
    · exact ⟨_, hq⟩
  cases p with
  | add =>
    obtain ⟨xs, -, h⟩ := ok_of_bind h
    exact ⟨_, h⟩
  | sub =>
    obtain ⟨xs, -, h⟩ := ok_of_bind h
    split at h
    · exact ⟨_, h⟩
    · cases h
  | mul => exact of_onTwo (fun _ _ hf => ⟨_, hf⟩) h
  | div => exact of_onTwo (fun a b => hquotient _ a b Binary64.div?) h
  | mod => exact of_onTwo (fun a b => hquotient _ a b Binary64.rem?) h
  | percent => exact of_onTwo (fun a b => hquotient _ a b Binary64.rem?) h
  | less | greater | and | or | not | cons | car | cdr | atom | eq | neq => simp [arithmetic] at hp

theorem datum_of_onValues {p : Primitive} {vs : List Expr} {v : Expr}
    (hvs : p ≠ .atom → ∀ w ∈ vs, Datum w) (h : onValues p vs = .ok v) : Datum v := by
  have htruth : ∀ b : Bool, (.ok (ofBool b) : Except Fault Expr) = .ok v → Datum v := by
    intro b hb
    exact Except.ok.inj hb ▸ datum_ofBool b
  cases p with
  | add | sub | mul | div | mod | percent =>
    obtain ⟨x, hx⟩ := exists_ofNumber_of_onValues (by simp [arithmetic]) h
    exact datum_of_ofNumber hx
  | less => exact of_onTwo (fun _ _ => htruth _) h
  | greater => exact of_onTwo (fun _ _ => htruth _) h
  | and =>
    obtain ⟨bs, -, h⟩ := ok_of_bind h
    exact htruth _ h
  | or =>
    obtain ⟨bs, -, h⟩ := ok_of_bind h
    exact htruth _ h
  | not =>
    obtain ⟨bs, -, h⟩ := ok_of_bind h
    split at h
    · exact htruth _ h
    · cases h
  | cons => exact Except.ok.inj h ▸ .list (hvs (by decide))
  | car =>
    simp only [onValues] at h
    split at h
    · next first rest =>
      have hlist := hvs (by decide) (.list (first :: rest)) (by simp)
      exact Except.ok.inj h ▸ hlist.items first (by simp)
    · exact Except.ok.inj h ▸ datum_nil
  | cdr =>
    simp only [onValues] at h
    split at h
    · next first rest =>
      have hlist := hvs (by decide) (.list (first :: rest)) (by simp)
      exact Except.ok.inj h ▸ .list fun w hw => hlist.items w (by simp [hw])
    · exact Except.ok.inj h ▸ datum_nil
  | atom => exact htruth _ h
  | eq =>
    simp only [onValues] at h
    split at h
    · exact htruth _ h
    · cases h
  | neq =>
    simp only [onValues] at h
    split at h
    · exact htruth _ h
    · cases h

theorem datum_of_choice : ∀ {cs : List Expr},
    (∀ test result, .list [test, result] ∈ cs → ∀ v, value g result = .ok v → Datum v) →
      ∀ {v : Expr}, choice g cs = .ok v → Datum v
  | [], _, v, h => Except.ok.inj h ▸ datum_nil
  | c :: cs, hcs, v, h => by
    unfold choice at h
    split at h
    · next heq => cases heq
    · next test result rest heq =>
      obtain ⟨rfl, rfl⟩ := List.cons.inj heq
      obtain ⟨w, -, h⟩ := ok_of_bind h
      split at h
      · exact hcs test result (by simp) v h
      · exact datum_of_choice (fun t r hm => hcs t r (by simp [hm])) h
    · cases h

/-- The value of a plain expression of the language is a datum. -/
theorem datum_of_value (hg : Standard g) {e : Expr} (he : Plain e) (h : FirstOrder g e) :
    ∀ v, value g e = .ok v → Datum v := by
  induction h with
  | @num t =>
    rintro v hv
    cases he.readable with
    | num ht => exact Except.ok.inj hv ▸ .constant ht
  | @str t =>
    rintro v hv
    cases he.readable with
    | str ht => exact Except.ok.inj hv ▸ .constant ht
  | sym hb hc =>
    rintro v hv
    rw [value_sym hb] at hv
    exact Except.ok.inj hv ▸ .constant hc
  | data hes ih =>
    rintro v hv
    rw [value_data hg hes] at hv
    obtain ⟨vs, hvs, hv⟩ := ok_of_bind hv
    exact Except.ok.inj hv ▸ .list (forall_of_values (fun e hm => ih e hm (he.items e hm)) hvs)
  | @call p es _ ih =>
    rintro v hv
    rw [value_call, perform] at hv
    split at hv
    · cases hv
    · split at hv
      · exact datum_of_onValues (by simp) hv
      · obtain ⟨vs, hvs, hv⟩ := ok_of_bind hv
        refine datum_of_onValues (fun _ => forall_of_values (fun e hm => ?_) hvs) hv
        exact ih e hm (he.items e (by simp [hm]))
  | @cond cs _ _ _ ihresult =>
    rintro v hv
    rw [value_cond] at hv
    split at hv
    · cases hv
    · refine datum_of_choice (fun test result hm => ?_) hv
      have hclause : Plain (.list [test, result]) := he.items _ (by simp [hm])
      exact ihresult test result hm (hclause.items result (by simp))

end Direct

end SpliceLisp
