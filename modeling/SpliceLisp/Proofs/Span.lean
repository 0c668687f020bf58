/-
# What is read of a substituted body

The text that a body has become is read up to the first expression, and what
stands after that is lost. Nothing does, as long as the parenthesis that opens the
body stays open up to its own at the end (`Expr.firstFrom_of_read`).

Where a text stands is told by its characters alone: in a string or not, and in
how many lists (`Text.placeAfter`). The text of an expression ends where it begins,
so an argument that comes in outside a string changes nothing. Inside a string it
is read the wrong way round: its strings are code and its code is in strings. It
still ends as it began, for it has an even number of double quotes, but it can
close lists that it did not open. If no argument does so (`Expr.keepsOpen`), each
replacing leaves at least the lists open that were open (`Text.placeAfter_replaceFrom`).

The lexemes of a text know its place as well as the characters do
(`Lexeme.State.next_place`), and a list that they leave open is open for the reader
(`Reader.exists_firstFrom_append`).

Key definitions: `Text.Place`, `Text.placeAfter`, `Expr.keepsOpen`.
Key theorems: `Text.placeAfter_replaceFrom`, `Lexeme.scanFrom_append_closing`,
`Reader.exists_firstFrom_append`, `Expr.firstFrom_substitute`.
-/
import Mathlib
import SpliceLisp.Proofs.Completion
import SpliceLisp.Proofs.Substitution
import SpliceLisp.Proofs.WellFormed

namespace SpliceLisp

/-! ### Places in a text -/

namespace Text

/-- Where a text stands between two characters: whether a string has begun and not
ended, and how many lists are open. -/
structure Place where
  inString : Bool
  depth : Nat
deriving DecidableEq, Repr

/-- The place after a character, unless that closes a list where none is open. -/
def Place.next (p : Place) (c : Char) : Option Place :=
  if c = '"' then some ⟨!p.inString, p.depth⟩
  else if p.inString then some p
  else if c = '(' then some ⟨false, p.depth + 1⟩
  else if c = ')' then if p.depth = 0 then none else some ⟨false, p.depth - 1⟩
  else some p

/-- The place after a text, unless that closes a list where none is open. -/
def placeAfter (p : Place) (t : Text) : Option Place := t.foldlM Place.next p

/-- A character that changes no place. -/
def isPlain (c : Char) : Bool := c ≠ '"' && c ≠ '(' && c ≠ ')'

theorem isPlain_iff {c : Char} : isPlain c = true ↔ c ≠ '"' ∧ c ≠ '(' ∧ c ≠ ')' := by
  simp [isPlain, and_assoc]

theorem placeAfter_cons (p : Place) (c : Char) (t : Text) :
    placeAfter p (c :: t) = (p.next c).bind fun q => placeAfter q t := List.foldlM_cons

theorem placeAfter_append (p : Place) (s t : Text) :
    placeAfter p (s ++ t) = (placeAfter p s).bind fun q => placeAfter q t := List.foldlM_append

theorem isPlain_of_class {p : Char → Bool} (hp : ['"', '(', ')'].any p = false) {c : Char}
    (h : p c = true) : isPlain c = true := by
  simp only [List.any_cons, List.any_nil, Bool.or_false, Bool.or_eq_false_iff] at hp
  refine isPlain_iff.2 ⟨?_, ?_, ?_⟩ <;> rintro rfl <;> simp_all

theorem Place.next_of_isPlain {c : Char} (hc : isPlain c = true) (p : Place) :
    p.next c = some p := by
  obtain ⟨h1, h2, h3⟩ := isPlain_iff.1 hc
  simp [Place.next, h1, h2, h3]

theorem Place.next_of_class {q : Char → Bool} (hq : ['"', '(', ')'].any q = false) {c : Char}
    (h : q c = true) {p : Place} : p.next c = some p :=
  Place.next_of_isPlain (isPlain_of_class hq h) p

theorem placeAfter_cons_of_isPlain {c : Char} (hc : isPlain c = true) (p : Place) (t : Text) :
    placeAfter p (c :: t) = placeAfter p t := by
  rw [placeAfter_cons, Place.next_of_isPlain hc, Option.bind_some]

theorem placeAfter_of_isPlain (p : Place) : ∀ {t : Text}, (∀ c ∈ t, isPlain c = true) →
    placeAfter p t = some p
  | [], _ => rfl
  | c :: t, h => by
    rw [placeAfter_cons_of_isPlain (h c (by simp)),
      placeAfter_of_isPlain p fun d hd => h d (by simp [hd])]

theorem placeAfter_quoted (depth : Nat) : ∀ {s : Text}, '"' ∉ s →
    placeAfter ⟨true, depth⟩ s = some ⟨true, depth⟩
  | [], _ => rfl
  | c :: s, h => by
    simp only [List.mem_cons, not_or] at h
    have hnext : Place.next ⟨true, depth⟩ c = some ⟨true, depth⟩ := by
      simp [Place.next, Ne.symm h.1]
    rw [placeAfter_cons, hnext, Option.bind_some, placeAfter_quoted depth h.2]

/-- What can be read with so many lists open can be read with more. -/
theorem Place.next_add {p q : Place} {c : Char} (h : p.next c = some q) (k : Nat) :
    Place.next ⟨p.inString, p.depth + k⟩ c = some ⟨q.inString, q.depth + k⟩ := by
  obtain ⟨b, d⟩ := p
  unfold Place.next at h ⊢
  split_ifs at h ⊢ with h1 h2 h3 h4 h5 <;> cases h <;> grind

theorem placeAfter_add (k : Nat) : ∀ {t : Text} {p q : Place}, placeAfter p t = some q →
    placeAfter ⟨p.inString, p.depth + k⟩ t = some ⟨q.inString, q.depth + k⟩
  | [], _, _, h => by cases h; rfl
  | c :: t, p, q, h => by
    rw [placeAfter_cons] at h ⊢
    obtain ⟨r, hr, ht⟩ := Option.bind_eq_some_iff.1 h
    rw [Place.next_add hr k, Option.bind_some, placeAfter_add k ht]

theorem Place.inString_next {p q : Place} {c : Char} (h : p.next c = some q) :
    q.inString = (if c = '"' then !p.inString else p.inString) := by
  unfold Place.next at h
  split_ifs at h ⊢ <;> cases h <;> simp_all

/-- Read from the other side of a double quote, a text ends on the other side. -/
theorem inString_placeAfter_not : ∀ {t : Text} {p q p' q' : Place}, placeAfter p t = some q →
    placeAfter p' t = some q' → p'.inString = !p.inString → q'.inString = !q.inString
  | [], _, _, _, _, h, h', hp => by cases h; cases h'; exact hp
  | c :: t, p, q, p', q', h, h', hp => by
    rw [placeAfter_cons] at h h'
    obtain ⟨r, hr, ht⟩ := Option.bind_eq_some_iff.1 h
    obtain ⟨r', hr', ht'⟩ := Option.bind_eq_some_iff.1 h'
    refine inString_placeAfter_not ht ht' ?_
    rw [Place.inString_next hr, Place.inString_next hr', hp]
    split <;> rfl

/-- From inside a string or from outside, the text ends as it began and closes no
list that it does not open. -/
def Raises (inString : Bool) (t : Text) : Prop :=
  ∃ k, ∀ depth, placeAfter ⟨inString, depth⟩ t = some ⟨inString, depth + k⟩

theorem Raises.of_placeAfter {inString : Bool} {t : Text} {k : Nat}
    (h : placeAfter ⟨inString, 0⟩ t = some ⟨inString, k⟩) : Raises inString t :=
  ⟨k, fun depth => by simpa [Nat.add_comm] using placeAfter_add depth h⟩

/-! ### Replacing -/

/-- Whether the word begins somewhere in a string of the text. The first argument
says if the text begins in one. -/
def occursInString (word : Text) : Bool → Text → Bool
  | _, [] => false
  | inString, c :: cs => inString && word.isPrefixOf (c :: cs) ||
      occursInString word (if c = '"' then !inString else inString) cs

/-- **Replacing leaves lists open.** If what comes in closes no list that it does
not open, nor from inside a string if it comes in there, the text ends as it did,
with at least as many lists open. -/
theorem placeAfter_replaceFrom {word put : Text} (hne : word ≠ [])
    (hword : ∀ c ∈ word, isPlain c = true) (hput : put.Raises false) :
    ∀ (passed : Nat) {t : Text} {p q : Place}, (∀ c ∈ t.take passed, isPlain c = true) →
      placeAfter p t = some q → (occursInString word p.inString t = true → put.Raises true) →
        ∃ k, placeAfter p (replaceFrom word put passed t) = some ⟨q.inString, q.depth + k⟩
  | _, [], p, q, _, h, _ => by
    cases h
    exact ⟨0, by rw [replaceFrom]; rfl⟩
  | passed + 1, c :: t, p, q, hpassed, h, hin => by
    simp only [List.take_succ_cons, List.forall_mem_cons] at hpassed
    rw [placeAfter_cons_of_isPlain hpassed.1] at h
    rw [replaceFrom]
    refine placeAfter_replaceFrom hne hword hput passed hpassed.2 h fun ho => hin ?_
    rw [occursInString, if_neg (isPlain_iff.1 hpassed.1).1, ho, Bool.or_true]
  | 0, c :: t, p, q, _, h, hin => by
    rw [placeAfter_cons] at h
    obtain ⟨r, hr, ht⟩ := Option.bind_eq_some_iff.1 h
    have hrest : occursInString word r.inString t = true → put.Raises true := fun ho => hin (by
      rw [occursInString, ← Place.inString_next hr, ho, Bool.or_true])
    rw [replaceFrom]
    split
    · next hpre =>
      obtain ⟨hc, hpassed⟩ : isPlain c = true ∧
          ∀ d ∈ t.take (word.length - 1), isPlain d = true := by
        obtain ⟨more, hmore⟩ := List.isPrefixOf_iff_prefix.1 hpre
        cases word with
        | nil => exact absurd rfl hne
        | cons w ws =>
          obtain ⟨rfl, hws⟩ := List.cons.inj hmore
          rw [List.length_cons, Nat.add_sub_cancel, ← hws, List.append_eq, List.take_left]
          exact List.forall_mem_cons.1 hword
      obtain rfl : p = r := Option.some.inj ((Place.next_of_isPlain hc p).symm.trans hr)
      -- The rest follows what came in, with the lists open that this has opened.
      obtain ⟨k, hk⟩ := placeAfter_replaceFrom hne hword hput _ hpassed ht hrest
      obtain ⟨j, hj⟩ : put.Raises p.inString := by
        cases hp : p.inString with
        | false => exact hput
        | true => exact hin (by rw [occursInString, hp, hpre]; rfl)
      refine ⟨k + j, ?_⟩
      rw [placeAfter_append, hj, Option.bind_some, placeAfter_add j hk, Nat.add_assoc]
    · obtain ⟨k, hk⟩ := placeAfter_replaceFrom hne hword hput 0 (by simp) ht hrest
      exact ⟨k, by rw [placeAfter_cons, hr, Option.bind_some, hk]⟩

end Text

/-! ### Places and lexemes -/

namespace Lexeme

open Text

/-- The depth after a lexeme, unless that closes a list where none is open. -/
def depthWithin (depth : Nat) (l : Lexeme) : Option Nat :=
  if l.kind = .closing ∧ depth = 0 then none else some (depthAfter depth l)

/-- Whether the pass stands in a string. -/
def State.inString (s : State) : Bool := s.endFault.isSome

theorem depthWithin_of_atom {l : Lexeme} (h : l.kind ∉ [.opening, .closing]) (depth : Nat) :
    depthWithin depth l = some depth := by
  cases hk : l.kind <;> simp_all [depthWithin, depthAfter]

theorem State.depthWithin_pending (s : State) (depth : Nat) :
    s.pending.foldlM depthWithin depth = some depth := by
  cases s with
  | between | string _ _ => rfl
  | sign _ _ | integer _ _ | fraction _ _ | symbol _ _ =>
    exact List.foldlM_cons.trans (by rw [depthWithin_of_atom (by simp)]; rfl)

theorem State.next_place_begin {column : Nat} {c : Char} {out : List Lexeme} {s : State}
    (h : State.begin column c = some (out, s)) (depth : Nat) :
    Place.next ⟨false, depth⟩ c = (out.foldlM depthWithin depth).map fun d => ⟨s.inString, d⟩ := by
  unfold State.begin at h
  split at h
  · next hc => cases h; exact Place.next_of_class (by decide) hc
  split at h
  · next hc => cases h; subst hc; rfl
  split at h
  · next hc =>
    cases h
    subst hc
    cases depth <;> rfl
  split at h
  · next hc => cases h; subst hc; rfl
  split at h
  · next hc => cases h; subst hc; rfl
  split at h
  · next hc => cases h; exact Place.next_of_class (by decide) hc
  split at h
  · next hc => cases h; exact Place.next_of_class (by decide +kernel) hc
  split at h
  · next hc =>
    cases h
    have hall : operators.all isPlain = true := by decide
    exact Place.next_of_isPlain (List.all_eq_true.1 hall c hc) _
  · cases h

theorem State.next_place_leave {s next : State} {column : Nat} {c : Char} {out : List Lexeme}
    (hs : s.endFault = none) (h : s.leave column c = some (out, next)) (depth : Nat) :
    Place.next ⟨s.inString, depth⟩ c =
      (out.foldlM depthWithin depth).map fun d => ⟨next.inString, d⟩ := by
  have hstring : s.inString = false := by rw [State.inString, hs]; rfl
  unfold State.leave at h
  split at h
  · obtain ⟨⟨ls, t⟩, hb, he⟩ := Option.map_eq_some_iff.1 h
    cases he
    rw [hstring, State.next_place_begin hb, List.foldlM_append, State.depthWithin_pending]
    rfl
  · cases h

/-- A character that completes lexemes changes the place as they do. -/
theorem State.next_place {s next : State} {column : Nat} {c : Char} {out : List Lexeme}
    (h : s.step column c = some (out, next)) (depth : Nat) :
    Place.next ⟨s.inString, depth⟩ c =
      (out.foldlM depthWithin depth).map fun d => ⟨next.inString, d⟩ := by
  cases s with
  | between => exact State.next_place_begin h depth
  | sign start d =>
    simp only [State.step] at h
    split at h
    · next hc => cases h; exact Place.next_of_class (by decide) hc.2
    · exact State.next_place_leave rfl h depth
  | integer start seen =>
    simp only [State.step] at h
    split at h
    · next hc => cases h; exact Place.next_of_class (by decide) hc
    split at h
    · next hc => cases h; subst hc; rfl
    · exact State.next_place_leave rfl h depth
  | fraction start seen =>
    simp only [State.step] at h
    split at h
    · next hc => cases h; exact Place.next_of_class (by decide) hc
    · exact State.next_place_leave rfl h depth
  | symbol start seen =>
    simp only [State.step] at h
    split at h
    · next hc => cases h; exact Place.next_of_class (by decide +kernel) hc
    · exact State.next_place_leave rfl h depth
  | string start seen =>
    simp only [State.step] at h
    split at h
    · next hc => cases h; subst hc; rfl
    · next hc =>
      cases h
      simp [Place.next, hc, State.inString, State.endFault]

/-- A text that leaves its strings ended is cut into lexemes that close no list which
they do not open, be it as far as it can be cut or up to the parenthesis after it. -/
theorem scanFrom_append_closing : ∀ (column : Nat) {t : Text} {s : State} {depth depth' : Nat},
    placeAfter ⟨s.inString, depth⟩ t = some ⟨false, depth'⟩ →
      ∃ (ls : List Lexeme) (d : Nat), ls.foldlM depthWithin depth = some d ∧
        ((∃ c : Lexeme, c.kind = .closing ∧
            scanFrom s column (t ++ [')']) = ⟨ls ++ [c], none⟩) ∨
          ∃ f, scanFrom s column (t ++ [')']) = ⟨ls, some f⟩)
  | column, [], s, depth, depth', h => by
    have hs : s.endFault = none := by
      simpa [State.inString] using congrArg Place.inString (Option.some.inj h)
    have hdelimiter : isDelimiter ')' = true := by decide
    refine ⟨s.pending, depth, s.depthWithin_pending depth,
      Or.inl ⟨⟨.closing, [')'], column⟩, rfl, ?_⟩⟩
    rw [List.nil_append, scanFrom_leave (show Delimited [')'] from hdelimiter) hs fun c hc =>
      State.step_of_isDelimiter hs hc column, scanFrom_closing]
    rfl
  | column, c :: t, s, depth, depth', h => by
    rw [placeAfter_cons] at h
    obtain ⟨q, hq, ht⟩ := Option.bind_eq_some_iff.1 h
    cases hstep : s.step column c with
    | none =>
      exact ⟨[], depth, rfl, Or.inr ⟨_, by rw [List.cons_append, scanFrom, hstep]⟩⟩
    | some now =>
      obtain ⟨out, next⟩ := now
      rw [State.next_place hstep, Option.map_eq_some_iff] at hq
      obtain ⟨d, hd, rfl⟩ := hq
      have hon := scanFrom_cons (t ++ [')']) hstep
      obtain ⟨ls, d', hls, ⟨k, hk, hscan⟩ | ⟨f, hscan⟩⟩ :=
        scanFrom_append_closing (column + 1) ht
      · refine ⟨out ++ ls, d', ?_, Or.inl ⟨k, hk, ?_⟩⟩
        · rw [List.foldlM_append, hd]; exact hls
        · rw [List.cons_append, hon, hscan, after, List.append_assoc]
      · refine ⟨out ++ ls, d', ?_, Or.inr ⟨f, ?_⟩⟩
        · rw [List.foldlM_append, hd]; exact hls
        · rw [List.cons_append, hon, hscan, after]

end Lexeme

/-! ### Reading with a list open -/

namespace Reader

open Lexeme

theorem deliver_eq_nil_of_some : ∀ (e : Expr) {d : Expr} (frames : List Frame),
    (deliver e frames).2 = some d → (deliver e frames).1 = []
  | _, _, [], _ => rfl
  | _, _, .list _ :: _, h => nomatch h
  | e, _, .quote :: frames, h => deliver_eq_nil_of_some (.quote e.render) frames h

theorem step_eq_nil_of_some {frames : List Frame} {l : Lexeme} {e : Expr}
    (h : (step frames l).2 = some e) : (step frames l).1 = [] := by
  unfold step at h ⊢
  split at h
  · cases h
  · split at h
    · exact deliver_eq_nil_of_some _ _ h
    · cases h
    · cases h
  · cases h
  all_goals exact deliver_eq_nil_of_some _ _ h

/-- As long as lexemes close no list but those that they open, a list that is open
before them stays open, and no expression is read. -/
theorem exists_firstFrom_append : ∀ {ls : List Lexeme} {frames : List Frame} {depth d : Nat},
    ls.foldlM depthWithin depth = some d → depth < openLists frames →
      ∃ next, 0 < openLists next ∧ ∀ ms, firstFrom frames (ls ++ ms) = firstFrom next ms
  | [], frames, _, _, _, hopen => ⟨frames, Nat.zero_lt_of_lt hopen, fun _ => rfl⟩
  | l :: ls, frames, depth, d, h, hopen => by
    rw [List.foldlM_cons] at h
    obtain ⟨depth', hdepth, hls⟩ := Option.bind_eq_some_iff.1 h
    have hstep : depth' < openLists (step frames l).1 := by
      unfold depthWithin at hdepth
      split at hdepth
      · cases hdepth
      · next hclose =>
        cases hdepth
        obtain ⟨hl, -, outer, rfl⟩ | ⟨hafter, -⟩ := openLists_step frames l
        · rw [step_quote_closing hl, depthAfter, hl]
          exact Nat.lt_of_le_of_lt (Nat.pred_le depth) hopen
        · rw [hafter]
          cases hk : l.kind <;> simp only [depthAfter, hk, true_and] at hclose ⊢ <;> omega
    obtain ⟨next, hnext, hon⟩ := exists_firstFrom_append hls hstep
    refine ⟨next, hnext, fun ms => ?_⟩
    have hnone : step frames l = ((step frames l).1, none) := by
      refine Prod.ext rfl (Option.eq_none_iff_forall_ne_some.2 fun e he => ?_)
      rw [step_eq_nil_of_some he] at hstep
      cases hstep
    rw [List.cons_append, firstFrom, hnone]
    exact hon ms

theorem firstFrom_closing {frames : List Frame} {c : Lexeme} {e : Expr} {rest : List Lexeme}
    (h : firstFrom frames [c] = .ok (e, rest)) : rest = [] := by
  rw [firstFrom] at h
  split at h
  · cases h; rfl
  · cases h

end Reader

namespace Expr

open Text

/-! ### Texts of expressions -/

theorem isPlain_of_mem_atom {k : Lexeme.Kind} (hk : k.isAtom = true) {t : Text}
    (ht : k.admits t = true) : ∀ c ∈ t, isPlain c = true := by
  have hdigits : ∀ ds : Text, (∀ c ∈ ds, isDigit c = true) → ∀ c ∈ ds, isPlain c = true :=
    fun ds hds c hc => isPlain_of_class (by decide) (hds c hc)
  cases k with
  | number =>
    obtain ⟨d, ds, hd, hds, ht⟩ := Lexeme.admits_number_iff.1 ht
    have hrest : ∀ c ∈ d :: ds, isPlain c = true := by
      refine List.forall_mem_cons.2 ⟨isPlain_of_class (by decide) hd, ?_⟩
      cases hds with
      | whole _ hds => exact hdigits _ hds
      | point ds fs hds hfs =>
        exact List.forall_mem_append.2
          ⟨hdigits _ hds, List.forall_mem_cons.2 ⟨by decide, hdigits _ hfs⟩⟩
    obtain rfl | rfl := ht
    · exact hrest
    · exact List.forall_mem_cons.2 ⟨by decide, hrest⟩
  | symbol =>
    cases t with
    | nil => simp
    | cons c cs =>
      simp only [Lexeme.Kind.admits, Bool.and_eq_true, List.all_eq_true] at ht
      have hcs : ∀ d ∈ c :: cs, Lexeme.continuesSymbol d = true :=
        List.forall_mem_cons.2 ⟨Lexeme.continuesSymbol_of_beginsSymbol ht.1, ht.2⟩
      exact fun d hd => isPlain_of_class (by decide +kernel) (hcs d hd)
  | special =>
    have hall : Lexeme.operators.all isPlain = true := by decide
    rcases t with _ | ⟨c, _ | ⟨d, cs⟩⟩
    · cases ht
    · exact List.forall_mem_singleton.2
        (List.all_eq_true.1 hall c (by simpa [Lexeme.Kind.admits] using ht))
    · cases ht
  | opening | closing | quote | string => cases hk

theorem isPlain_of_mem_sym {P : Procedure → Prop} {n : Text} (h : (sym n).Shaped P) :
    ∀ c ∈ n, isPlain c = true := by
  cases h with
  | sym hn =>
    rcases Bool.or_eq_true_iff.1 hn with hn | hn
    · exact isPlain_of_mem_atom rfl hn
    · exact isPlain_of_mem_atom rfl hn

/-- What follows the first item of a list ends with the parenthesis that ends the
list, and before that no list is left open. -/
theorem exists_renderRest_eq : ∀ {es : List Expr},
    (∀ e ∈ es, ∀ depth, placeAfter ⟨false, depth⟩ e.render = some ⟨false, depth⟩) →
      ∃ t, renderRest es = t ++ [')'] ∧
        ∀ depth, placeAfter ⟨false, depth⟩ t = some ⟨false, depth⟩
  | [], _ => ⟨[], rfl, fun _ => rfl⟩
  | e :: es, h => by
    obtain ⟨t, ht, hplace⟩ := exists_renderRest_eq fun d hd => h d (List.mem_cons_of_mem e hd)
    refine ⟨' ' :: e.render ++ t, by rw [renderRest, ht, List.append_assoc], fun depth => ?_⟩
    rw [List.cons_append, placeAfter_cons_of_isPlain (by decide), placeAfter_append,
      h e (by simp), Option.bind_some, hplace]

theorem exists_render_list_eq {e : Expr} {es : List Expr}
    (h : ∀ d ∈ e :: es, ∀ depth, placeAfter ⟨false, depth⟩ d.render = some ⟨false, depth⟩) :
    ∃ t, (list (e :: es)).render = '(' :: (t ++ [')']) ∧
      ∀ depth, placeAfter ⟨false, depth⟩ t = some ⟨false, depth⟩ := by
  obtain ⟨t, ht, hplace⟩ := exists_renderRest_eq fun d hd => h d (List.mem_cons_of_mem e hd)
  refine ⟨e.render ++ t, by rw [render, ht, List.cons_append, List.append_assoc], fun depth => ?_⟩
  rw [placeAfter_append, h e (by simp), Option.bind_some, hplace]

theorem placeAfter_render {P : Procedure → Prop} {e : Expr} (h : e.Shaped P) (depth : Nat) :
    placeAfter ⟨false, depth⟩ e.render = some ⟨false, depth⟩ := by
  induction h generalizing depth with
  | num ht => exact placeAfter_of_isPlain _ (isPlain_of_mem_atom rfl ht)
  | @str t ht =>
    obtain ⟨s, hs, rfl⟩ := Lexeme.admits_string_iff.1 ht
    rw [render, List.cons_append, placeAfter_cons]
    change placeAfter ⟨true, depth⟩ (s ++ ['"']) = _
    rw [placeAfter_append, placeAfter_quoted depth hs]
    rfl
  | sym hn => exact placeAfter_of_isPlain _ (isPlain_of_mem_sym (.sym (P := P) hn))
  | quote _ ih => exact ih depth
  | @list es _ ih =>
    cases es with
    | nil => rfl
    | cons e es =>
      obtain ⟨t, ht, hplace⟩ := exists_render_list_eq ih
      rw [ht, placeAfter_cons]
      change placeAfter ⟨false, depth + 1⟩ (t ++ [')']) = _
      rw [placeAfter_append, hplace]
      rfl
  | func _ => rfl

theorem raises_render {P : Procedure → Prop} {e : Expr} (h : e.Shaped P)
    (hin : (placeAfter ⟨true, 0⟩ e.render).isSome = true) : Raises true e.render := by
  obtain ⟨⟨b, k⟩, hq⟩ := Option.isSome_iff_exists.1 hin
  obtain rfl : b = true := inString_placeAfter_not (placeAfter_render h 0) hq rfl
  exact .of_placeAfter hq

/-! ### Reading a text in parentheses -/

/-- **The end of what is read.** If the text between two parentheses closes no list
that it does not open and leaves no string open, and an expression is read, then the
second parenthesis is its end. -/
theorem firstFrom_of_read {t : Text} {k : Nat}
    (ht : placeAfter ⟨false, 0⟩ t = some ⟨false, k⟩) {e : Expr}
    (h : read ('(' :: (t ++ [')'])) = .ok e) :
    (Lexeme.scan ('(' :: (t ++ [')']))).fault = none ∧
      Reader.firstFrom [] (Lexeme.scan ('(' :: (t ++ [')']))).lexemes = .ok (e, []) := by
  obtain ⟨ls, d, hls, hends⟩ :=
    Lexeme.scanFrom_append_closing 1 (s := .between) ht
  obtain ⟨next, -, hon⟩ := Reader.exists_firstFrom_append hls
    (show 0 < Reader.openLists [.list []] from Nat.one_pos)
  have hopen : ∀ ms, Reader.firstFrom [] (⟨.opening, ['('], 0⟩ :: ms) =
      Reader.firstFrom [.list []] ms := fun _ => rfl
  rw [Lexeme.scan, Lexeme.scanFrom_opening]
  rw [read, Lexeme.scan, Lexeme.scanFrom_opening] at h
  obtain ⟨c, -, hscan⟩ | ⟨f, hscan⟩ := hends
  · simp only [hscan, Lexeme.after, List.singleton_append, hopen, hon] at h ⊢
    split at h
    · next hread =>
      cases h
      rw [hread, Reader.firstFrom_closing hread]
      exact ⟨trivial, rfl⟩
    · cases h
  · -- Where the text cannot be cut further the list is still open.
    simp only [hscan, Lexeme.after, List.singleton_append, hopen] at h
    rw [← List.append_nil ls, hon] at h
    cases h

/-! ### Substituting -/

theorem occursInString_append {word : Text} (u : Text) : ∀ {t : Text} {inString : Bool},
    occursInString word inString t = true → occursInString word inString (t ++ u) = true
  | [], _, h => nomatch h
  | c :: t, inString, h => by
    rw [List.cons_append, occursInString, Bool.or_eq_true, Bool.and_eq_true] at *
    refine h.imp (fun ⟨hin, hpre⟩ => ⟨hin, ?_⟩) (occursInString_append u)
    rw [List.isPrefixOf_iff_prefix] at *
    exact hpre.trans (List.prefix_append (c :: t) u)

/-- Whether no argument that comes in inside a string closes a list there that it
does not open, as one parameter of the text after the other gives way. -/
def keepsOpen : Text → List (Text × Expr) → Bool
  | _, [] => true
  | t, b :: σ => (!occursInString b.1 false t || (placeAfter ⟨true, 0⟩ b.2.render).isSome) &&
      keepsOpen (replaceAll b.1 b.2.render t) σ

/-- The text between the outer parentheses closes no list that it does not open, and
goes on doing so as parameters give way. -/
theorem foldl_replaceAll_eq : ∀ {σ : List (Text × Expr)} {t : Text} {k : Nat},
    (∀ b ∈ σ, (sym b.1).WellFormed ∧ b.2.WellFormed) →
      placeAfter ⟨false, 0⟩ t = some ⟨false, k⟩ → keepsOpen ('(' :: (t ++ [')'])) σ = true →
        ∃ u k', σ.foldl (fun text b => replaceAll b.1 b.2.render text) ('(' :: (t ++ [')'])) =
            '(' :: (u ++ [')']) ∧ placeAfter ⟨false, 0⟩ u = some ⟨false, k'⟩
  | [], t, k, _, ht, _ => ⟨t, k, rfl, ht⟩
  | b :: σ, t, k, hσ, ht, hkeeps => by
    obtain ⟨⟨hp, ha⟩, hσ⟩ := List.forall_mem_cons.1 hσ
    rw [keepsOpen, Bool.and_eq_true, Bool.or_eq_true] at hkeeps
    obtain ⟨hstring, hkeeps⟩ := hkeeps
    have hr : (sym b.1).Readable := by cases hp with | sym hn => exact .sym hn
    have hne := ne_nil_of_readable_sym hr
    obtain ⟨j, hj⟩ := placeAfter_replaceFrom hne (isPlain_of_mem_sym hp)
      ⟨0, placeAfter_render ha⟩ 0 (by simp) ht fun ho => by
        have hin : occursInString b.1 false ('(' :: (t ++ [')'])) = true :=
          occursInString_append [')'] ho
        exact raises_render ha (hstring.resolve_left (by simp [hin]))
    have hone : replaceAll b.1 b.2.render ('(' :: (t ++ [')'])) =
        '(' :: (replaceFrom b.1 b.2.render 0 t ++ [')']) := by
      rw [replaceAll, if_neg (by simpa using hne), replaceFrom_cons hr _ (by simp),
        replaceFrom_separator hr _ (by simp), replaceFrom]
    rw [hone] at hkeeps
    rw [List.foldl_cons, hone]
    exact foldl_replaceAll_eq hσ hj hkeeps

/-- **Nothing of a substituted body is dropped**, if no argument that comes in inside
a string closes a list there that it does not open: whatever is read of the text that
the body has become, nothing but blanks stands after it. -/
theorem firstFrom_substitute {first : Expr} {rest : List Expr}
    (hbody : (list (first :: rest)).WellFormed) {σ : List (Text × Expr)}
    (hσ : ∀ b ∈ σ, (sym b.1).WellFormed ∧ b.2.WellFormed)
    (hkeeps : keepsOpen (list (first :: rest)).render σ = true) :
    let source := substitute (list (first :: rest)) (σ.map fun b => sym b.1) (σ.map Prod.snd)
    ∀ e, read source = .ok e → (Lexeme.scan source).fault = none ∧
      Reader.firstFrom [] (Lexeme.scan source).lexemes = .ok (e, []) := by
  intro source e h
  obtain ⟨t, ht, hplace⟩ := exists_render_list_eq fun d hd => placeAfter_render (hbody.items d hd)
  have hzip : (σ.map fun b => sym b.1).zip (σ.map Prod.snd) = σ.map fun b => (sym b.1, b.2) :=
    List.zip_map'
  rw [ht] at hkeeps
  obtain ⟨u, k, hu, huplace⟩ := foldl_replaceAll_eq hσ (hplace 0) hkeeps
  have hsource : source = '(' :: (u ++ [')']) := by
    rw [← hu, ← ht]
    simp only [source, substitute, hzip, List.foldl_map]
    rfl
  rw [hsource] at h ⊢
  exact firstFrom_of_read huplace h

/-- A parameter in a string, where its argument opens and closes a list, and one
outside. -/
theorem firstFrom_substitute_list :
    let body : Expr := list [sym "cons", str "\"x\"", sym "x"]
    let σ : List (Text × Expr) := [("x", str "\" () \"")]
    let source := substitute body [sym "x"] (σ.map Prod.snd)
    let e : Expr := list [sym "cons", str "\"\"", list [], str "\"\"", str "\" () \""]
    (body.WellFormed ∧ (∀ b ∈ σ, (sym b.1).WellFormed ∧ b.2.WellFormed) ∧
      keepsOpen body.render σ = true ∧ read source = .ok e) ∧
    (Lexeme.scan source).fault = none ∧
      Reader.firstFrom [] (Lexeme.scan source).lexemes = .ok (e, []) := by
  intro body σ source e
  have hbody : body.WellFormed := (readable_of_read
    (show read "(cons \"x\" x)".toList = .ok body by decide +kernel)).wellFormed
  have hσ : ∀ b ∈ σ, (sym b.1).WellFormed ∧ b.2.WellFormed :=
    List.forall_mem_singleton.2 ⟨.sym (by decide +kernel), .str (by decide +kernel)⟩
  have hkeeps : keepsOpen body.render σ = true := by decide +kernel
  have hread : read source = .ok e := by decide +kernel
  exact ⟨⟨hbody, hσ, hkeeps, hread⟩, firstFrom_substitute hbody hσ hkeeps e hread⟩

/-- A session passes a function a string that closes its body too early: a string,
the number and a parenthesis stand after what is read. -/
theorem firstFrom_substitute_ne :
    let body : Expr := list [sym "cons", str "\"x\"", num "1"]
    let source := substitute body [sym "x"] [str "\")\""]
    let e : Expr := list [sym "cons", str "\"\""]
    let application : Text :=
      "apply " ++ (list [lambda, list [sym "x"], body]).render ++ " -> " ++ source
    Record.ofApplication application ∈
        (turn depthLimit "((lambda (x) (cons \"x\" 1)) \")\")" Context.startup).records ∧
      read source = .ok e ∧ Reader.firstFrom [] (Lexeme.scan source).lexemes =
        .ok (e, [⟨.string, "\"\"", 9⟩, ⟨.number, "1", 12⟩, ⟨.closing, ")", 13⟩]) := by
  intro body source e application
  refine ⟨?_, ?_, ?_⟩ <;> decide +kernel

end Expr

end SpliceLisp
