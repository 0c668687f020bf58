/-
# Closing parentheses that close nothing

Outside any list a closing parenthesis is ignored. Counted by the parentheses
alone, that is one at depth zero, and one would expect to read the same without
those (`Lexeme.withoutStray`), every other one closing a list.

A mark is the exception. A closing parenthesis between a mark and the expression
that it defers is ignored also inside a list, so that `(')a)` is a list although
the count has its list closed before the `a`. A source obeys the law of the
count exactly if no closing parenthesis follows a mark inside a list
(`Reader.obeys_count_iff`); `(')a)` does not (`Reader.not_obeys_count`).

The invariant is that the count is the number of lists that the reader has open
(`Reader.openLists_step`). It breaks at a closing parenthesis after a mark, and
there only.

Key definitions: `Lexeme.withoutStray`, `Reader.ClosesLists`, `Lexeme.NoClosingAfterMark`.
Key theorems: `Reader.openLists_step`, `Reader.readFrom_withoutStray`,
`Reader.obeys_count_iff`.
-/
import SpliceLisp.Expr.Equality
import SpliceLisp.Proofs.Grammar

namespace SpliceLisp

namespace Lexeme

/-- The depth after a lexeme, which a closing parenthesis takes no lower than
zero. -/
def depthAfter (depth : Nat) (l : Lexeme) : Nat :=
  match l.kind with
  | .opening => depth + 1
  | .closing => depth - 1
  | _ => depth

/-- The lexemes without the closing parentheses at depth zero. -/
def withoutStray : Nat → List Lexeme → List Lexeme
  | _, [] => []
  | depth, l :: ls =>
    if l.kind = .closing ∧ depth = 0 then withoutStray 0 ls
    else l :: withoutStray (depthAfter depth l) ls

/-- No closing parenthesis follows a mark inside a list. -/
def NoClosingAfterMark (depth : Nat) (ls : List Lexeme) : Prop :=
  ∀ (before after : List Lexeme) (m c : Lexeme), ls = before ++ m :: c :: after →
    m.kind = .quote → c.kind = .closing → before.foldl depthAfter depth = 0

theorem NoClosingAfterMark.tail {depth : Nat} {l : Lexeme} {ls : List Lexeme}
    (h : NoClosingAfterMark depth (l :: ls)) : NoClosingAfterMark (depthAfter depth l) ls :=
  fun before after m c hls => h (l :: before) after m c (congrArg (l :: ·) hls)

end Lexeme

namespace Reader

open Lexeme

def openLists : List Frame → Nat
  | [] => 0
  | .list _ :: frames => openLists frames + 1
  | .quote :: frames => openLists frames

def framesAfter (frames : List Frame) (ls : List Lexeme) : List Frame :=
  ls.foldl (fun frames l => (step frames l).1) frames

/-- Every closing parenthesis that is met while a list is open closes one. -/
def ClosesLists (frames : List Frame) (ls : List Lexeme) : Prop :=
  ∀ (before after : List Lexeme) (c : Lexeme), ls = before ++ c :: after → c.kind = .closing →
    0 < openLists (framesAfter frames before) →
      openLists (framesAfter frames before) = openLists (framesAfter frames (before ++ [c])) + 1

theorem ClosesLists.tail {frames : List Frame} {l : Lexeme} {ls : List Lexeme}
    (h : ClosesLists frames (l :: ls)) : ClosesLists (step frames l).1 ls :=
  fun before after c hls => h (l :: before) after c (congrArg (l :: ·) hls)

/-! ### One lexeme -/

theorem openLists_deliver (e : Expr) : ∀ frames : List Frame,
    openLists (deliver e frames).1 = openLists frames ∧
      ¬∃ outer, (deliver e frames).1 = .quote :: outer
  | [] => ⟨rfl, by simp [deliver]⟩
  | .list _ :: _ => ⟨rfl, by simp [deliver]⟩
  | .quote :: frames => openLists_deliver (.quote e.render) frames

theorem step_quote_closing {c : Lexeme} (hc : c.kind = .closing) (outer : List Frame) :
    step (.quote :: outer) c = (.quote :: outer, none) := by
  simp [step, hc]

theorem step_mark {m : Lexeme} (hm : m.kind = .quote) (frames : List Frame) :
    step frames m = (.quote :: frames, none) := by
  simp [step, hm]

theorem step_closing_of_openLists_eq_zero {c : Lexeme} (hc : c.kind = .closing) :
    ∀ {frames : List Frame}, openLists frames = 0 → step frames c = (frames, none)
  | [], _ => by simp [step, hc]
  | .quote :: outer, _ => step_quote_closing hc outer

/-- The depth follows the number of open lists, unless a closing parenthesis
comes after a mark with a list open. Only a mark leaves a mark waiting. -/
theorem openLists_step (frames : List Frame) (l : Lexeme) :
    (l.kind = .closing ∧ 0 < openLists frames ∧ ∃ outer, frames = .quote :: outer) ∨
      openLists (step frames l).1 = depthAfter (openLists frames) l ∧
        ((∃ outer, (step frames l).1 = .quote :: outer) →
          l.kind = .quote ∨ l.kind = .closing ∧ openLists frames = 0) := by
  cases hk : l.kind with
  | opening => exact Or.inr ⟨by simp [step, hk, openLists, depthAfter], by simp [step, hk]⟩
  | quote => exact Or.inr ⟨by simp [step, hk, openLists, depthAfter], fun _ => Or.inl rfl⟩
  | closing =>
    cases frames with
    | nil => exact Or.inr ⟨by simp [step, hk, openLists, depthAfter], by simp [step, hk]⟩
    | cons frame outer =>
      cases frame with
      | list items =>
        have hclose : step (.list items :: outer) l = deliver (.list items.reverse) outer := by
          simp [step, hk]
        obtain ⟨hopen, hmark⟩ := openLists_deliver (.list items.reverse) outer
        rw [hclose, hopen]
        exact Or.inr ⟨by simp [openLists, depthAfter, hk], fun ho => absurd ho hmark⟩
      | quote =>
        by_cases hzero : openLists outer = 0
        · refine Or.inr ⟨?_, fun _ => Or.inr ⟨rfl, hzero⟩⟩
          simp [step_quote_closing hk, openLists, depthAfter, hk, hzero]
        · exact Or.inl ⟨rfl, Nat.pos_of_ne_zero hzero, outer, rfl⟩
  | number | string | symbol | special =>
    obtain ⟨e, -, hstep⟩ := exists_phrase_word (l := l) (by simp [hk])
    obtain ⟨hopen, hmark⟩ := openLists_deliver e frames
    rw [hstep, hopen]
    exact Or.inr ⟨by simp [depthAfter, hk], fun ho => absurd ho hmark⟩

/-! ### All lexemes -/

/-- While closing parentheses close lists, the depth is the number of open
lists. -/
theorem ClosesLists.openLists_step {frames : List Frame} {l : Lexeme} {ls : List Lexeme}
    (h : ClosesLists frames (l :: ls)) :
    openLists (step frames l).1 = depthAfter (openLists frames) l := by
  rcases Reader.openLists_step frames l with ⟨hl, hopen, outer, rfl⟩ | ⟨hdepth, -⟩
  · have hone := h [] ls l rfl hl hopen
    have hsame : framesAfter (.quote :: outer) ([] ++ [l]) = .quote :: outer :=
      congrArg Prod.fst (step_quote_closing hl outer)
    rw [hsame] at hone
    exact absurd hone (Nat.ne_of_lt (Nat.lt_succ_self _))
  · exact hdepth

theorem ClosesLists.openLists_framesAfter : ∀ {before after : List Lexeme} {frames : List Frame},
    ClosesLists frames (before ++ after) →
      openLists (framesAfter frames before) = before.foldl depthAfter (openLists frames)
  | [], _, _, _ => rfl
  | l :: before, after, frames, h => by
    have hrest := h.tail.openLists_framesAfter
    rw [h.openLists_step] at hrest
    exact hrest

/-- **Parentheses that close nothing can be left out**, as long as the others
close lists. -/
theorem readFrom_withoutStray : ∀ {ls : List Lexeme} {frames : List Frame}, ClosesLists frames ls →
    readFrom frames (withoutStray (openLists frames) ls) = readFrom frames ls
  | [], _, _ => rfl
  | l :: ls, frames, h => by
    have hdepth := h.openLists_step
    have hrest := readFrom_withoutStray h.tail
    by_cases hl : l.kind = .closing ∧ openLists frames = 0
    · have hstep := step_closing_of_openLists_eq_zero hl.1 hl.2
      rw [hstep, hl.2] at hrest
      rw [withoutStray, if_pos hl, hrest, readFrom_cons, hstep]
      rfl
    · rw [hdepth] at hrest
      rw [withoutStray, if_neg hl, readFrom_cons, readFrom_cons, hrest]

/-- If no closing parenthesis follows a mark inside a list, and none comes next
where a mark waits inside a list, every one inside a list closes one. -/
theorem closesLists_of_noClosingAfterMark : ∀ {ls : List Lexeme} {frames : List Frame},
    NoClosingAfterMark (openLists frames) ls →
      (∀ outer c rest, frames = .quote :: outer → ls = c :: rest → c.kind = .closing →
        openLists outer = 0) → ClosesLists frames ls
  | [], _, _, _ => fun before after c hls => by simp at hls
  | l :: ls, frames, h, hready => by
    have hstep := (openLists_step frames l).resolve_left fun ⟨hl, hopen, outer, hq⟩ => by
      subst hq
      exact absurd (hready outer l ls rfl rfl hl) (Nat.ne_of_gt hopen)
    obtain ⟨hdepth, hmark⟩ := hstep
    have hrest : ClosesLists (step frames l).1 ls := by
      refine closesLists_of_noClosingAfterMark (hdepth ▸ h.tail) fun outer c rest hq hls hc => ?_
      have hopen : openLists outer = openLists (step frames l).1 := by rw [hq, openLists]
      rw [hopen, hdepth]
      rcases hmark ⟨outer, hq⟩ with hl | ⟨hl, hzero⟩
      · have hzero := h [] rest l c (by rw [hls]; rfl) hl hc
        simpa [depthAfter, hl] using hzero
      · simp [depthAfter, hl, hzero]
    intro before after c hls hc hopen
    cases before with
    | nil =>
      obtain ⟨rfl, -⟩ := List.cons.inj hls
      change openLists frames = openLists (step frames l).1 + 1
      rw [hdepth, depthAfter, hc]
      exact (Nat.succ_pred_eq_of_pos hopen).symm
    | cons d before =>
      obtain ⟨rfl, htail⟩ := List.cons.inj hls
      exact hrest before after c htail hc hopen

/-- A mark inside a list that a closing parenthesis follows keeps it from
closing anything. -/
theorem ClosesLists.noClosingAfterMark {frames : List Frame} {ls : List Lexeme}
    (h : ClosesLists frames ls) : NoClosingAfterMark (openLists frames) ls := by
  intro before after m c hls hm hc
  subst hls
  rw [← h.openLists_framesAfter]
  by_contra hne
  have hframes : framesAfter frames (before ++ [m]) = .quote :: framesAfter frames before := by
    rw [framesAfter, List.foldl_append]
    exact congrArg Prod.fst (step_mark hm _)
  have hstays :
      framesAfter frames (before ++ [m] ++ [c]) = .quote :: framesAfter frames before := by
    rw [framesAfter, List.foldl_append]
    change (step (framesAfter frames (before ++ [m])) c).1 = _
    rw [hframes]
    exact congrArg Prod.fst (step_quote_closing hc _)
  have hone := h (before ++ [m]) after c (by simp) hc (by
    rw [hframes]
    exact Nat.pos_of_ne_zero hne)
  rw [hstays, hframes] at hone
  exact absurd hone (Nat.ne_of_lt (Nat.lt_succ_self _))

/-- **When the count of parentheses decides.** Reading is the same without the
closing parentheses at depth zero, and each one that is met while a list is open
closes one, exactly if no closing parenthesis follows a mark inside a list. -/
theorem obeys_count_iff (ls : List Lexeme) :
    (readFrom [] (withoutStray 0 ls) = readFrom [] ls ∧ ClosesLists [] ls) ↔
      NoClosingAfterMark 0 ls := by
  constructor
  · exact fun h => h.2.noClosingAfterMark
  · intro h
    have hcloses : ClosesLists [] ls := closesLists_of_noClosingAfterMark h nofun
    exact ⟨readFrom_withoutStray hcloses, hcloses⟩

/-- The parenthesis after the mark does not end the list, and the one that ends
it is at depth zero: without it the list stays open. -/
theorem not_obeys_count :
    let source := "(')a)".toList
    let ls := (Lexeme.scan source).lexemes
    (Lexeme.scan source).fault = none ∧
      (readFrom [] ls).exprs = [.list [.quote "a"]] ∧ (readFrom [] ls).fault = none ∧
      (readFrom [] (withoutStray 0 ls)).exprs = [] ∧
      (readFrom [] (withoutStray 0 ls)).fault = some .unclosedList := by
  intro source ls
  refine ⟨?_, ?_, ?_, ?_, ?_⟩ <;> decide +kernel

end Reader

end SpliceLisp
