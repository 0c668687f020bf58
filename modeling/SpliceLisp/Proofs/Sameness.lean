/-
# Equality and duplicates

Two expressions are equal in the language exactly if they are one and the same and hold
no procedure (`Expr.same_iff`). So equality is symmetric and transitive, and reflexive
just for the expressions without procedures. What is left of a row of expressions
without its duplicates is then the first of each class, and each that holds a procedure
(`Expr.distinct_eq_filter`).

A dictionary finds a key by its hash first, and then if it is the very same object or an
equal one. How a text is hashed, and how a list is from the hashes of its items, does
not matter here (`Hashing`); a procedure is hashed by the place where it is stored, so
that an expression with one can have any hash. Equal expressions have one hash
(`Expr.hash_unique`), and objects that share no procedure are kept by a dictionary
just as expressions are (`Key.map_expr_firsts`).

Key definitions: `Expr.holdsNoProcedure`, `Expr.differs`, `Hashing`, `Expr.Hashes`,
`Key.firsts`, `Key.Objects`.
Key theorems: `Expr.same_iff`, `Expr.distinct_eq_filter`, `Expr.hash_unique`,
`Key.map_expr_firsts`, `Expr.equality_and_duplicates`.
-/
import Mathlib
import SpliceLisp.Expr.Equality

namespace SpliceLisp

namespace Expr

/-! ### Equality -/

mutual

def holdsNoProcedure : Expr → Bool
  | list es => holdNoProcedure es
  | func _ => false
  | _ => true

/-- Whether no part of any of the expressions is a procedure. -/
def holdNoProcedure : List Expr → Bool
  | [] => true
  | e :: es => holdsNoProcedure e && holdNoProcedure es

end

/-- Whether two expressions differ, as the first has it: a procedure differs from
everything, and anything else from what it does not equal. -/
def differs : Expr → Expr → Bool
  | func _, _ => true
  | e, f => !same e f

mutual

theorem same_eq : ∀ e f : Expr, same e f = (e.holdsNoProcedure && identical e f)
  | num _, f | str _, f | sym _, f | quote _, f | func _, f => by
    cases f <;> simp [same, identical, holdsNoProcedure]
  | list es, f => by
    cases f with
    | list fs => simp only [same, identical, holdsNoProcedure, sameAll_eq es fs]
    | _ => simp [same, identical]

theorem sameAll_eq : ∀ es fs : List Expr,
    sameAll es fs = (holdNoProcedure es && identicalAll es fs)
  | [], fs => by cases fs <;> simp [sameAll, identicalAll, holdNoProcedure]
  | e :: es, fs => by
    cases fs with
    | nil => simp [sameAll, identicalAll]
    | cons f fs =>
      simp only [sameAll, identicalAll, holdNoProcedure, same_eq e f, sameAll_eq es fs]
      ac_rfl

end

/-- Expressions are equal if they are the same and without procedures. -/
theorem same_iff {e f : Expr} : same e f = true ↔ e.holdsNoProcedure = true ∧ e = f := by
  rw [same_eq, Bool.and_eq_true, identical_iff]

theorem same_self (e : Expr) : same e e = e.holdsNoProcedure := by
  rw [same_eq, identical_self, Bool.and_true]

theorem same_comm (e f : Expr) : same e f = same f e := by
  rw [Bool.eq_iff_iff, same_iff, same_iff]
  constructor
  · rintro ⟨h, rfl⟩
    exact ⟨h, rfl⟩
  · rintro ⟨h, rfl⟩
    exact ⟨h, rfl⟩

theorem same_trans {d e f : Expr} (h : same d e = true) (h' : same e f = true) :
    same d f = true := by
  obtain ⟨-, rfl⟩ := same_iff.1 h
  exact h'

theorem differs_eq (e f : Expr) : differs e f = !same e f := by
  cases e with
  | func p => rw [same_eq]; rfl
  | _ => rfl

/-! ### Without duplicates -/

theorem any_same_iff {e : Expr} {es : List Expr} :
    es.any (same e) = true ↔ e.holdsNoProcedure = true ∧ e ∈ es := by
  simp only [List.any_eq_true, same_iff]
  constructor
  · rintro ⟨d, hd, h, rfl⟩
    exact ⟨h, hd⟩
  · rintro ⟨h, he⟩
    exact ⟨e, he, h, rfl⟩

/-- Those kept need not be all that came before, if each of these that can be equal to
something is among them. -/
theorem distinctFrom_eq_filter : ∀ (es : List Expr) {kept earlier : List Expr},
    (∀ e, e.holdsNoProcedure = true → (e ∈ kept ↔ e ∈ earlier)) →
      distinctFrom kept es = ((es.zipIdx earlier.length).filter fun p =>
        !((earlier ++ es).take p.2).any (same p.1)).map Prod.fst
  | [], _, _, _ => rfl
  | e :: es, kept, earlier, h => by
    have hany : kept.any (same e) = earlier.any (same e) := by
      rw [Bool.eq_iff_iff, any_same_iff, any_same_iff]
      exact and_congr_right (h e)
    have htake : (earlier ++ e :: es).take earlier.length = earlier := List.take_left
    have hall : earlier ++ e :: es = earlier ++ [e] ++ es := by simp
    have hlength : earlier.length + 1 = (earlier ++ [e]).length := by simp
    rw [distinctFrom, hany, List.zipIdx_cons, List.filter_cons, htake, hlength, hall]
    cases hfound : earlier.any (same e) with
    | true =>
      -- What is left out has come before, so it is kept already.
      obtain ⟨-, he⟩ := any_same_iff.1 hfound
      refine distinctFrom_eq_filter es fun d hd => (h d hd).trans ?_
      rw [List.mem_append, List.mem_singleton]
      exact ⟨Or.inl, fun hor => hor.elim id fun heq => heq ▸ he⟩
    | false =>
      refine congrArg (e :: ·) (distinctFrom_eq_filter es fun d hd => ?_)
      rw [List.mem_append, List.mem_singleton, List.mem_cons, h d hd, or_comm]

/-- Without its duplicates a row consists of those that equal none before. -/
theorem distinct_eq_filter (es : List Expr) :
    distinct es = (es.zipIdx.filter fun p => !(es.take p.2).any (same p.1)).map Prod.fst :=
  distinctFrom_eq_filter es fun e _ => (Iff.rfl : e ∈ [] ↔ e ∈ [])

theorem filter_distinctFrom : ∀ (es kept : List Expr),
    (distinctFrom kept es).filter (fun e => !e.holdsNoProcedure) =
      es.filter fun e => !e.holdsNoProcedure
  | [], _ => rfl
  | e :: es, kept => by
    rw [distinctFrom]
    split
    · next hfound =>
      have he : e.holdsNoProcedure = true := (any_same_iff.1 hfound).1
      rw [filter_distinctFrom es kept, List.filter_cons_of_neg (by simp [he])]
    · rw [List.filter_cons, List.filter_cons, filter_distinctFrom es (e :: kept)]

end Expr

/-! ### Hashes -/

/-- How hashes are made: of the text of some variant, and of the hashes of items. -/
structure Hashing (H : Type) where
  text : Text → Text → H
  items : List H → H

namespace Expr

variable {H : Type}

mutual

/-- The expression can have the hash. That of a procedure says where it is stored, so
it can be any. -/
def Hashes (h : Hashing H) : Expr → H → Prop
  | num t, x => x = h.text "Num" t
  | str t, x => x = h.text "Str" t
  | sym n, x => x = h.text "Sym" n
  | quote t, x => x = h.text "Quote" t
  | list es, x => ∃ xs, HashesAll h es xs ∧ x = h.items xs
  | func _, _ => True

/-- The expressions can have the hashes, one by one. -/
def HashesAll (h : Hashing H) : List Expr → List H → Prop
  | [], xs => xs = []
  | e :: es, xs => ∃ y ys, Hashes h e y ∧ HashesAll h es ys ∧ xs = y :: ys

end

variable {h : Hashing H}

mutual

/-- Without procedures an expression has but one hash. -/
theorem hash_unique : ∀ {e : Expr} {x y : H}, e.holdsNoProcedure = true → e.Hashes h x →
    e.Hashes h y → x = y
  | num _, _, _, _, hx, hy | str _, _, _, _, hx, hy | sym _, _, _, _, hx, hy
  | quote _, _, _, _, hx, hy => by
    simp only [Hashes] at hx hy
    exact hx.trans hy.symm
  | list es, _, _, he, hx, hy => by
    simp only [Hashes] at hx hy
    obtain ⟨xs, hxs, rfl⟩ := hx
    obtain ⟨ys, hys, rfl⟩ := hy
    rw [hashes_unique (by simpa [holdsNoProcedure] using he) hxs hys]
  | func _, _, _, he, _, _ => by simp [holdsNoProcedure] at he

theorem hashes_unique : ∀ {es : List Expr} {xs ys : List H}, holdNoProcedure es = true →
    HashesAll h es xs → HashesAll h es ys → xs = ys
  | [], _, _, _, hxs, hys => by
    simp only [HashesAll] at hxs hys
    exact hxs.trans hys.symm
  | e :: es, _, _, hes, hxs, hys => by
    simp only [holdNoProcedure, Bool.and_eq_true] at hes
    simp only [HashesAll] at hxs hys
    obtain ⟨x, xs, hx, hxs, rfl⟩ := hxs
    obtain ⟨y, ys, hy, hys, rfl⟩ := hys
    rw [hash_unique hes.1 hx hy, hashes_unique hes.2 hxs hys]

end

theorem hash_eq_of_same {e f : Expr} {x y : H} (hsame : same e f = true) (hx : e.Hashes h x)
    (hy : f.Hashes h y) : x = y := by
  obtain ⟨he, rfl⟩ := same_iff.1 hsame
  exact hash_unique he hx hy

end Expr

/-! ### Keys of a dictionary -/

/-- An object as a dictionary takes it for a key: where it is stored, which tells it
from other objects, its hash, and the expression that it is. -/
structure Key (H : Type) where
  address : Nat
  hash : H
  expr : Expr

namespace Key

variable {H : Type}

section Finding

variable [DecidableEq H]

/-- Whether a dictionary that has the key `k` takes `l` for it. -/
def isFor (k l : Key H) : Bool :=
  k.hash = l.hash && (k.address = l.address || k.expr.same l.expr)

/-- The keys that are put in where those in `kept` are already, in order. -/
def firstsFrom (kept : List (Key H)) : List (Key H) → List (Key H)
  | [] => []
  | k :: ks => if kept.any (isFor · k) then firstsFrom kept ks else k :: firstsFrom (k :: kept) ks

/-- The keys of a dictionary made of the given ones, in order. -/
def firsts (ks : List (Key H)) : List (Key H) := firstsFrom [] ks

end Finding

/-- The keys are objects of which no two share a procedure: each has a hash of its
expression, there is one object at one place, and one with a procedure does not come
twice. -/
structure Objects (h : Hashing H) (ks : List (Key H)) : Prop where
  hashes : ∀ k ∈ ks, k.expr.Hashes h k.hash
  stored : ∀ k ∈ ks, ∀ l ∈ ks, k.address = l.address → k = l
  apart : ks.Pairwise fun k l => k.expr.holdsNoProcedure = false → k.address ≠ l.address

variable {h : Hashing H}

theorem Objects.sublist {ks ls : List (Key H)} (hls : Objects h ls) (hks : ks.Sublist ls) :
    Objects h ks where
  hashes k hk := hls.hashes k (hks.subset hk)
  stored k hk l hl := hls.stored k (hks.subset hk) l (hks.subset hl)
  apart := hls.apart.sublist hks

variable [DecidableEq H]

/-- A key is taken for one before exactly if the two are equal. -/
theorem Objects.isFor_eq {before after : List (Key H)} {k l : Key H}
    (hks : Objects h (before ++ l :: after)) (hk : k ∈ before) :
    k.isFor l = k.expr.same l.expr := by
  have hmem : k ∈ before ++ l :: after := List.mem_append_left _ hk
  have hmem' : l ∈ before ++ l :: after := List.mem_append_right _ List.mem_cons_self
  rw [Bool.eq_iff_iff, isFor, Bool.and_eq_true, Bool.or_eq_true, decide_eq_true_eq,
    decide_eq_true_eq]
  constructor
  · rintro ⟨-, haddress | hsame⟩
    · -- The object that came before has no procedure, or it would not come again.
      obtain rfl := hks.stored k hmem l hmem' haddress
      rw [Expr.same_self, ← Bool.not_eq_false]
      exact fun hfalse => (List.pairwise_append.1 hks.apart).2.2 k hk k List.mem_cons_self hfalse rfl
    · exact hsame
  · exact fun hsame => ⟨Expr.hash_eq_of_same hsame (hks.hashes k hmem) (hks.hashes l hmem'),
      Or.inr hsame⟩

theorem map_expr_firstsFrom : ∀ {ks kept : List (Key H)}, Objects h (kept.reverse ++ ks) →
    (firstsFrom kept ks).map expr = Expr.distinctFrom (kept.map expr) (ks.map expr)
  | [], _, _ => rfl
  | k :: ks, kept, hks => by
    have hany : kept.any (isFor · k) = (kept.map expr).any (Expr.same k.expr) := by
      rw [List.any_map, Bool.eq_iff_iff, List.any_eq_true, List.any_eq_true]
      refine exists_congr fun l => and_congr_right fun hl => ?_
      rw [hks.isFor_eq (List.mem_reverse.2 hl), Function.comp_apply, Expr.same_comm]
    rw [firstsFrom, hany, List.map_cons, Expr.distinctFrom]
    split
    · exact map_expr_firstsFrom (hks.sublist (by simp))
    · have hmore : Objects h ((k :: kept).reverse ++ ks) := by simpa using hks
      exact congrArg (k.expr :: ·) (map_expr_firstsFrom hmore)

/-- The keys of a dictionary are the expressions without their duplicates. -/
theorem map_expr_firsts {ks : List (Key H)} (hks : Objects h ks) :
    (firsts ks).map expr = Expr.distinct (ks.map expr) :=
  have hall : Objects h ([].reverse ++ ks) := hks
  map_expr_firstsFrom hall

end Key

/-- **Equality is identity without procedures, and duplicates go by it.** Two expressions
are equal exactly if neither holds a procedure and they are the same in structure. So
equality is symmetric and transitive, an expression equals itself exactly if it holds no
procedure, and to differ is not to be equal. Without its duplicates a row of expressions
consists of those that equal none before, in order, and so of each that holds a
procedure. However hashes are made, equal expressions have the same, and the keys of a
dictionary made of objects that share no procedure are just these. -/
theorem Expr.equality_and_duplicates :
    (∀ a b : Expr, a.same b = true ↔
      (a.holdsNoProcedure = true ∧ b.holdsNoProcedure = true) ∧ a = b) ∧
    (∀ a b : Expr, a.same b = b.same a) ∧
    (∀ a b c : Expr, a.same b = true → b.same c = true → a.same c = true) ∧
    (∀ a : Expr, a.same a = a.holdsNoProcedure) ∧
    (∀ a b : Expr, a.differs b = !a.same b) ∧
    (∀ es : List Expr,
      distinct es = (es.zipIdx.filter fun p => !(es.take p.2).any (same p.1)).map Prod.fst ∧
      (distinct es).filter (fun e => !e.holdsNoProcedure) =
        es.filter fun e => !e.holdsNoProcedure) ∧
    ∀ (H : Type) [DecidableEq H] (h : Hashing H),
      (∀ (a b : Expr) (x y : H), a.same b = true → a.Hashes h x → b.Hashes h y → x = y) ∧
      ∀ ks : List (Key H), Key.Objects h ks →
        (Key.firsts ks).map Key.expr = distinct (ks.map Key.expr) := by
  refine ⟨fun a b => same_iff.trans ⟨?_, ?_⟩, same_comm, fun _ _ _ => same_trans, same_self,
    differs_eq, fun es => ⟨distinct_eq_filter es, filter_distinctFrom es []⟩,
    fun _ _ _ => ⟨fun _ _ _ _ => hash_eq_of_same, fun _ => Key.map_expr_firsts⟩⟩
  · rintro ⟨ha, rfl⟩
    exact ⟨⟨ha, ha⟩, rfl⟩
  · rintro ⟨⟨ha, -⟩, hab⟩
    exact ⟨ha, hab⟩

/-- All keys have one hash. An equal list and the very same object are left out, and a list
with a procedure stays although one like it has come before. -/
theorem Expr.equality_and_duplicates_one_hash :
    let h : Hashing Nat := ⟨fun variant t => variant.length + t.length, List.sum⟩
    let one : Expr := list [num "1"]
    let sum : Expr := list [func (.primitive .add)]
    let ks : List (Key Nat) := [⟨0, 4, one⟩, ⟨1, 4, sum⟩, ⟨2, 4, sum⟩, ⟨3, 4, one⟩, ⟨0, 4, one⟩,
      ⟨5, 4, sym "a"⟩]
    Key.Objects h ks ∧ (Key.firsts ks).map Key.expr = [one, sum, sum, sym "a"] := by
  intro h one sum ks
  have hone : one.Hashes h 4 := by simp [one, h, Hashes, HashesAll]
  have hsum : sum.Hashes h 4 := by simp [sum, h, Hashes, HashesAll]
  have hname : (sym "a").Hashes h 4 := by simp [h, Hashes]
  have hks : Key.Objects h ks :=
    { hashes := by simpa [ks, hone, hsum] using hname
      stored := by simp [ks]
      apart := by simp [ks, one, holdsNoProcedure, holdNoProcedure] }
  obtain ⟨-, -, -, -, -, -, hkeys⟩ := equality_and_duplicates
  refine ⟨hks, ((hkeys Nat h).2 ks hks).trans ?_⟩
  decide

end SpliceLisp
