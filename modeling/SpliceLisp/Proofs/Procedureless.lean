/-
# Expressions without procedures

A procedure has no text of its own: it shows as something that no reader
accepts. So an expression that is as a reader makes it but for its procedures
prints as readable text exactly if it has none, and none in what its deferred
texts are the texts of (`Expr.procedureless_iff`).

The text of any other is cut into lexemes up to a procedure. The lists that
hold the procedure are open there, and so nothing has been read
(`Expr.Breaks`).

Key definitions: `Expr.WellFormed`, `Expr.Procedureless`, `Expr.Breaks`.
Key theorems: `Expr.readable_iff`, `Expr.Shaped.readable_or_breaks`,
`Expr.procedureless_iff`.
-/
import Mathlib
import SpliceLisp.Proofs.Program
import SpliceLisp.Proofs.RoundTrip

namespace SpliceLisp

namespace Expr

open Lexeme

/-- The texts of the expression are as a reader makes them, and its procedures
are builtins. -/
abbrev WellFormed : Expr → Prop := Shaped fun p => p ∈ Procedure.builtins

/-- No part of the expression is a procedure, and each deferred text in it is
the text of a well-formed expression of which the same is true. -/
inductive Procedureless : Expr → Prop
  | num (t : Text) : Procedureless (.num t)
  | str (t : Text) : Procedureless (.str t)
  | sym (n : Text) : Procedureless (.sym n)
  | quote {e : Expr} : e.WellFormed → Procedureless e → Procedureless (.quote e.render)
  | list {es : List Expr} : (∀ e ∈ es, Procedureless e) → Procedureless (.list es)

theorem Shaped.wellFormed {e : Expr} (h : e.Readable) : e.WellFormed :=
  h.mono fun _ hp => hp.elim

/-- What is readable is what is well formed and without procedures. -/
theorem readable_iff {e : Expr} : e.Readable ↔ e.WellFormed ∧ e.Procedureless := by
  constructor
  · intro h
    refine ⟨h.wellFormed, ?_⟩
    induction h with
    | num _ => exact .num _
    | str _ => exact .str _
    | sym _ => exact .sym _
    | quote he ih => exact .quote he.wellFormed ih
    | list _ ih => exact .list ih
    | func hp => exact hp.elim
  · rintro ⟨hw, h⟩
    induction h with
    | num t => cases hw with
      | num ht => exact .num ht
    | str t => cases hw with
      | str ht => exact .str ht
    | sym n => cases hw with
      | sym hn => exact .sym hn
    | quote he _ ih => exact .quote (ih he)
    | list _ ih => exact .list fun e he => ih e he (hw.items e he)

/-! ### Texts with procedures -/

/-- Whatever follows it, the text cannot be cut into lexemes, and those before
the failure leave an expression unfinished. -/
def Breaks (t : Text) : Prop :=
  ∀ (column : Nat) (rest : Text), ∃ ls frames fault, Unfinished ls frames ∧
    scanFrom .between column (t ++ rest) = ⟨ls, some fault⟩

/-- The same of a text inside a list: some items can come first. -/
def BreaksInside (t : Text) : Prop :=
  ∀ (column : Nat) (rest : Text), ∃ (items : List (List Lexeme × Expr)) (ls : List Lexeme)
    (frames : List Reader.Frame) (fault : Fault), (∀ i ∈ items, Phrase i.1 i.2) ∧
      Unfinished ls frames ∧
        scanFrom .between column (t ++ rest) = ⟨items.flatMap Prod.fst ++ ls, some fault⟩

/-- The text of a procedure begins with letters that nothing may follow as it
does. -/
theorem breaks_func (p : Procedure) : Breaks (func p).render := by
  intro column rest
  have hF : State.step .between column 'F' = some ([], .symbol column ['F']) :=
    step_between_letter column (by decide +kernel)
  have hn : State.step (.symbol column ['F']) (column + 1) 'n' =
      some ([], .symbol column ['n', 'F']) := by
    rw [State.step, if_pos (by decide +kernel)]
  have hangle : State.step (.symbol column ['n', 'F']) (column + 1 + 1) '<' = none := by
    rw [State.step, if_neg (by decide +kernel), State.leave, if_neg (by decide +kernel)]
  refine ⟨[], [], .unexpectedChar '<' (column + 1 + 1), .nothing, ?_⟩
  change scanFrom .between column ('F' :: 'n' :: '<' :: _) = _
  rw [scanFrom_cons _ hF, scanFrom_cons _ hn, scanFrom, hangle]
  rfl

theorem Breaks.inside {t : Text} (h : Breaks t) (u : Text) : BreaksInside (t ++ u) := by
  intro column rest
  obtain ⟨ls, frames, fault, hls, hscan⟩ := h column (u ++ rest)
  exact ⟨[], ls, frames, fault, by simp, hls, by simpa using hscan⟩

theorem BreaksInside.blank {t : Text} (h : BreaksInside t) : BreaksInside (' ' :: t) := by
  intro column rest
  rw [List.cons_append, scanFrom_blank (by decide)]
  exact h (column + 1) rest

theorem BreaksInside.cons {t u : Text} {e : Expr} (h : BreaksInside u) (he : Spells t e)
    (hu : ∀ rest, Delimited (u ++ rest)) : BreaksInside (t ++ u) := by
  intro column rest
  obtain ⟨ms, hms, hscan⟩ := he column (u ++ rest) (hu rest)
  obtain ⟨items, ls, frames, fault, hitems, hls, htail⟩ := h (column + t.length) rest
  refine ⟨(ms, e) :: items, ls, frames, fault, List.forall_mem_cons.2 ⟨hms, hitems⟩, hls, ?_⟩
  rw [List.append_assoc, hscan, htail]
  simp [after]

theorem BreaksInside.list {t : Text} (h : BreaksInside t) : Breaks ('(' :: t) := by
  intro column rest
  obtain ⟨items, ls, frames, fault, hitems, hls, hscan⟩ := h (column + 1) rest
  have hopen := Unfinished.list (o := ⟨.opening, ['('], column⟩) .nothing rfl hitems
  refine ⟨_, _, fault, hopen.append hls, ?_⟩
  rw [List.cons_append, scanFrom_opening, hscan]
  simp [after]

theorem breaksInside_items : ∀ {es : List Expr} {e : Expr},
    (∀ d ∈ e :: es, d.Readable ∨ Breaks d.render) → (¬∀ d ∈ e :: es, d.Readable) →
      BreaksInside (e.render ++ renderRest es)
  | es, e, h, hne => by
    obtain he | he := h e (by simp)
    · cases es with
      | nil => exact absurd (by simpa using he) hne
      | cons d ds =>
        have hrest : ¬∀ c ∈ d :: ds, c.Readable := fun hall =>
          hne (List.forall_mem_cons.2 ⟨he, hall⟩)
        have hds := breaksInside_items (fun c hc => h c (List.mem_cons_of_mem e hc)) hrest
        exact hds.blank.cons he.spells (delimited_renderRest (d :: ds))
    · exact he.inside (renderRest es)

/-- A shaped expression is readable or has a text that breaks. -/
theorem Shaped.readable_or_breaks {P : Procedure → Prop} {e : Expr} (h : e.Shaped P) :
    e.Readable ∨ Breaks e.render := by
  induction h with
  | num ht => exact Or.inl (.num ht)
  | str ht => exact Or.inl (.str ht)
  | sym hn => exact Or.inl (.sym hn)
  | quote _ ih => exact ih.imp_left .quote
  | func _ => exact Or.inr (breaks_func _)
  | @list es _ ih =>
    by_cases hall : ∀ e ∈ es, e.Readable
    · exact Or.inl (.list hall)
    · cases es with
      | nil => exact absurd (by simp) hall
      | cons e es => exact Or.inr (breaksInside_items ih hall).list

theorem Breaks.read {t : Text} (h : Breaks t) : ∃ f, read t = .error f := by
  obtain ⟨ls, frames, fault, hls, hscan⟩ := h 0 []
  rw [List.append_nil] at hscan
  have hfirst : Reader.firstFrom [] ls =
      .error ((Reader.missing frames).getD .missingExpression) := by
    have hrun := Reader.first.run_unfinished hls []
    rwa [List.append_nil] at hrun
  exact ⟨fault, by simp [Expr.read, scan, hscan, hfirst]⟩

/-- **A well-formed expression prints as readable text exactly if it is without
procedures**, and then the text reads as an expression of the same text. -/
theorem procedureless_iff {e : Expr} (h : e.WellFormed) :
    e.Procedureless ↔ ∃ d, read e.render = .ok d ∧ d.render = e.render := by
  constructor
  · intro hp
    have hr := readable_iff.2 ⟨h, hp⟩
    exact ⟨e.unquoted, read_render hr, render_unquoted hr⟩
  · rintro ⟨d, hd, -⟩
    obtain hr | hb := h.readable_or_breaks
    · exact (readable_iff.1 hr).2
    · obtain ⟨f, hf⟩ := hb.read
      rw [hd] at hf
      cases hf

end Expr

end SpliceLisp
