/-
# Expressions that a text can stand for

`Expr.Shaped P e` says that the texts in `e` are as a reader makes them: a
number, string or symbol matches the pattern of its class, and a deferred text
is the text of an expression that is shaped in its turn. The procedures in `e`
satisfy `P`. With no procedure at all the expression is *readable*, and whatever
is read is (`Expr.readable_of_read`, `Expr.readable_of_mem_readAll`).

Key definitions: `Expr.Shaped`, `Expr.Readable`, `Expr.holdsNoQuote`.
Key theorems: `Expr.readable_of_read`, `Expr.readable_of_mem_readAll`.
-/
import SpliceLisp.Proofs.Words
import SpliceLisp.Reader

namespace SpliceLisp

namespace Expr

/-- The texts of the expression are as a reader makes them, and its procedures
satisfy `P`. -/
inductive Shaped (P : Procedure → Prop) : Expr → Prop
  | num {t : Text} : Lexeme.Kind.admits .number t = true → Shaped P (.num t)
  | str {t : Text} : Lexeme.Kind.admits .string t = true → Shaped P (.str t)
  | sym {n : Text} :
      (Lexeme.Kind.admits .symbol n || Lexeme.Kind.admits .special n) = true → Shaped P (.sym n)
  | quote {e : Expr} : Shaped P e → Shaped P (.quote e.render)
  | list {es : List Expr} : (∀ e ∈ es, Shaped P e) → Shaped P (.list es)
  | func {p : Procedure} : P p → Shaped P (.func p)

/-- An expression as a reader makes it. -/
abbrev Readable : Expr → Prop := Shaped fun _ => False

theorem Shaped.mono {P Q : Procedure → Prop} (h : ∀ p, P p → Q p) {e : Expr} (he : e.Shaped P) :
    e.Shaped Q := by
  induction he with
  | num ht => exact .num ht
  | str ht => exact .str ht
  | sym hn => exact .sym hn
  | quote _ ih => exact .quote ih
  | list _ ih => exact .list ih
  | func hp => exact .func (h _ hp)

theorem Shaped.items {P : Procedure → Prop} {es : List Expr} (h : (Expr.list es).Shaped P) :
    ∀ e ∈ es, e.Shaped P := by
  cases h with
  | list hes => exact hes

mutual

def holdsNoQuote : Expr → Bool
  | quote _ => false
  | list es => holdNoQuote es
  | _ => true

/-- Whether no part of any of the expressions is deferred. -/
def holdNoQuote : List Expr → Bool
  | [] => true
  | e :: es => holdsNoQuote e && holdNoQuote es

end

theorem holdNoQuote_iff {es : List Expr} :
    holdNoQuote es = true ↔ ∀ e ∈ es, e.holdsNoQuote = true := by
  induction es with
  | nil => simp [holdNoQuote]
  | cons e es ih => simp [holdNoQuote, ih]

@[simp] theorem holdsNoQuote_list {es : List Expr} :
    (list es).holdsNoQuote = true ↔ ∀ e ∈ es, e.holdsNoQuote = true := by
  rw [holdsNoQuote, holdNoQuote_iff]

end Expr

/-! ### What is read is readable -/

namespace Reader

/-- The items of unfinished lists are readable. -/
def Frame.Readable : Frame → Prop
  | .list items => ∀ e ∈ items, e.Readable
  | .quote => True

theorem readable_deliver {e : Expr} (he : e.Readable) : ∀ {frames : List Frame},
    (∀ f ∈ frames, f.Readable) →
      (∀ f ∈ (deliver e frames).1, f.Readable) ∧ ∀ d ∈ (deliver e frames).2, d.Readable
  | [], _ => by simpa [deliver] using he
  | .quote :: frames, h => readable_deliver (.quote he) fun f hf => h f (by simp [hf])
  | .list items :: frames, h => by
    have hitems : ∀ d ∈ items, d.Readable := h (.list items) (by simp)
    refine ⟨fun f hf => ?_, by simp [deliver]⟩
    rcases List.mem_cons.1 hf with rfl | hf
    · intro d hd
      rcases List.mem_cons.1 hd with rfl | hd
      · exact he
      · exact hitems d hd
    · exact h f (by simp [hf])

theorem readable_step {frames : List Frame} (h : ∀ f ∈ frames, f.Readable) {l : Lexeme}
    (hl : l.kind.admits l.text = true) :
    (∀ f ∈ (step frames l).1, f.Readable) ∧ ∀ d ∈ (step frames l).2, d.Readable := by
  unfold step
  split
  · exact ⟨by simpa [Frame.Readable] using h, by simp⟩
  · split
    · next items outer =>
      have hitems : ∀ d ∈ items, d.Readable := h (.list items) (by simp)
      exact readable_deliver (.list (by simpa using hitems)) fun f hf => h f (by simp [hf])
    · exact ⟨h, by simp⟩
    · simp
  · exact ⟨by simpa [Frame.Readable] using h, by simp⟩
  · next hk => rw [hk] at hl; exact readable_deliver (.num hl) h
  · next hk => rw [hk] at hl; exact readable_deliver (.str hl) h
  · next hk => rw [hk] at hl; exact readable_deliver (.sym (by simp [hl])) h
  · next hk => rw [hk] at hl; exact readable_deliver (.sym (by simp [hl])) h

theorem readable_readFrom : ∀ {ls : List Lexeme} {frames : List Frame},
    (∀ f ∈ frames, f.Readable) → (∀ l ∈ ls, l.kind.admits l.text = true) →
      ∀ e ∈ (readFrom frames ls).exprs, e.Readable
  | [], _, _, _ => by simp [readFrom]
  | l :: ls, frames, hf, hls => by
    obtain ⟨hnext, hdone⟩ := readable_step hf (hls l (by simp))
    intro e he
    rcases List.mem_append.1 he with he | he
    · exact hdone e (Option.mem_toList.1 he)
    · exact readable_readFrom hnext (fun k hk => hls k (by simp [hk])) e he

theorem readable_firstFrom : ∀ {ls : List Lexeme} {frames : List Frame},
    (∀ f ∈ frames, f.Readable) → (∀ l ∈ ls, l.kind.admits l.text = true) →
      ∀ {e : Expr} {rest : List Lexeme}, firstFrom frames ls = .ok (e, rest) → e.Readable
  | [], _, _, _, _, _, h => by simp [firstFrom] at h
  | l :: ls, frames, hf, hls, e, rest, h => by
    obtain ⟨hnext, hdone⟩ := readable_step hf (hls l (by simp))
    simp only [firstFrom] at h
    split at h
    · next hs =>
      cases h
      exact hdone e (by simp [hs])
    · next hs =>
      rw [hs] at hnext
      exact readable_firstFrom hnext (fun k hk => hls k (by simp [hk])) h

end Reader

namespace Expr

theorem readable_of_mem_readAll {source : Text} {e : Expr} (h : e ∈ (readAll source).exprs) :
    e.Readable :=
  Reader.readable_readFrom (by simp) (Lexeme.admits_scan source) e h

theorem readable_of_read {source : Text} {e : Expr} (h : read source = .ok e) : e.Readable := by
  simp only [read] at h
  split at h
  · next hf =>
    cases h
    exact Reader.readable_firstFrom (by simp) (Lexeme.admits_scan source) hf
  · cases h

end Expr

end SpliceLisp
