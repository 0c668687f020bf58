/-
# The first expression of a text

To read the first expression of a text is to read up to its last lexeme. What stands
behind that is not looked at, but for the one character that tells where a number or a
name ends: the text may be cut there, and anything may follow, as long as a delimiter
comes first where the last lexeme needs one, and the same expression is read
(`Expr.read_take_append`). It is the first of all expressions of the text, also if not
all of it can be read.

The last lexeme is known from the grammar: stray closing parentheses, and then a phrase
that ends with it (`Reader.BeginsWith`). The reader stops just there
(`Reader.beginsWith_of_firstFrom`), and the pass over the characters has then cut off
just what stands up to the end of that lexeme (`Lexeme.Cut.replace`).

Key definition: `Reader.BeginsWith`.
Key theorems: `Reader.firstFrom_eq_iff`, `Lexeme.Cut.replace`, `Expr.read_take_append`.
-/
import Mathlib
import SpliceLisp.Proofs.Slices

namespace SpliceLisp

/-! ### Up to the last lexeme -/

namespace Reader

open Lexeme

/-- Behind closing parentheses that close nothing, the lexemes begin with a phrase for
the expression. The phrase ends with the lexeme `l`, and the others come after it. -/
def BeginsWith (ls : List Lexeme) (e : Expr) (l : Lexeme) (rest : List Lexeme) : Prop :=
  ∃ cs ms, ls = cs ++ (ms ++ l :: rest) ∧ (∀ c ∈ cs, c.kind = .closing) ∧ Phrase (ms ++ [l]) e

section BeginsWith

variable {ls rest : List Lexeme} {e : Expr} {l : Lexeme}

/-- What comes after the phrase does not belong to it. -/
theorem BeginsWith.replace (h : BeginsWith ls e l rest) :
    ∃ before, ls = before ++ l :: rest ∧ ∀ others, BeginsWith (before ++ l :: others) e l others := by
  obtain ⟨cs, ms, rfl, hcs, hphrase⟩ := h
  exact ⟨cs ++ ms, by simp, fun others => ⟨cs, ms, by simp, hcs, hphrase⟩⟩

theorem BeginsWith.run {β : Type} (p : Pass β) (h : BeginsWith ls e l rest) :
    p.run [] ls = p.goOn ([], some e) rest := by
  obtain ⟨cs, ms, rfl, hcs, hphrase⟩ := h
  have hrun := p.run_phrase hphrase [] rest
  rw [List.append_assoc, List.singleton_append] at hrun
  rw [p.run_strays _ hcs, hrun, deliver]

/-- The reader stops at the last lexeme of a phrase. -/
theorem beginsWith_of_firstFrom : ∀ {later : List Lexeme} {seen : List Lexeme}
    {frames : List Frame}, Unfinished seen frames → firstFrom frames later = .ok (e, rest) →
      ∃ l, BeginsWith (seen ++ later) e l rest
  | [], _, _, _, h => by cases h
  | k :: later, seen, frames, hseen, h => by
    rw [firstFrom] at h
    rcases unfinished_step hseen k with ⟨hk, rfl⟩ | ⟨next, hstep, hnext⟩ | ⟨d, hstep, hd⟩
    · -- With nothing unfinished there are no lexemes yet, and this one closes nothing.
      obtain rfl : seen = [] := by cases hseen; rfl
      have hstep : step [] k = ([], none) := by simp [step, hk]
      rw [hstep] at h
      obtain ⟨l, cs, ms, hlater, hcs, hphrase⟩ := beginsWith_of_firstFrom .nothing h
      exact ⟨l, k :: cs, ms, congrArg (k :: ·) hlater, List.forall_mem_cons.2 ⟨hk, hcs⟩, hphrase⟩
    · rw [hstep] at h
      obtain ⟨l, hl⟩ := beginsWith_of_firstFrom hnext h
      exact ⟨l, by rwa [List.append_assoc] at hl⟩
    · rw [hstep] at h
      cases h
      exact ⟨k, [], seen, rfl, List.forall_mem_nil _, hd⟩

/-- The reader stops where the first phrase ends. -/
theorem firstFrom_eq_iff : firstFrom [] ls = .ok (e, rest) ↔ ∃ l, BeginsWith ls e l rest :=
  ⟨beginsWith_of_firstFrom .nothing, fun ⟨_, h⟩ => h.run first⟩

theorem BeginsWith.unique {e' : Expr} {l' : Lexeme} {rest' : List Lexeme}
    (h : BeginsWith ls e l rest) (h' : BeginsWith ls e' l' rest') :
    e = e' ∧ l = l' ∧ rest = rest' := by
  have hrun : Except.ok (ε := Fault) (e, rest) = .ok (e', rest') :=
    (h.run first).symm.trans (h'.run first)
  cases hrun
  obtain ⟨before, hls, -⟩ := h.replace
  obtain ⟨before', hls', -⟩ := h'.replace
  -- In front of what is left stands the last lexeme.
  have hlast : (before ++ [l]) ++ rest = (before' ++ [l']) ++ rest := by
    rw [List.append_assoc, List.append_assoc]
    exact hls.symm.trans hls'
  obtain ⟨-, hl⟩ := List.append_inj' (List.append_cancel_right hlast) rfl
  exact ⟨rfl, (List.cons.inj hl).1, rfl⟩

/-- The first of all expressions is the one with which the lexemes begin. -/
theorem head?_readFrom_iff :
    (readFrom [] ls).exprs.head? = some e ↔ ∃ l rest, BeginsWith ls e l rest := by
  constructor
  · intro h
    obtain ⟨es, hes⟩ := List.head?_eq_some_iff.1 h
    obtain ⟨rest, hfirst⟩ := firstFrom_of_exprs hes
    obtain ⟨l, hl⟩ := firstFrom_eq_iff.1 hfirst
    exact ⟨l, rest, hl⟩
  · rintro ⟨l, rest, h⟩
    have hread : readFrom [] ls = every.goOn ([], some e) rest := h.run every
    rw [hread]
    rfl

end BeginsWith

end Reader

/-! ### Up to its end -/

namespace Lexeme

open Text

theorem ne_nil_of_admits {kind : Kind} {t : Text} (h : kind.admits t = true) : t ≠ [] := by
  rintro rfl
  cases kind <;> cases h

theorem exists_cut (source : Text) : ∃ k rest, Cut 0 source (scan source).lexemes k rest := by
  rcases scan_cases source with
    ⟨ls, hscan, hcut⟩ | ⟨ls, before, inside, hscan, -, -, hcut, -⟩ |
    ⟨ls, pre, c, post, k, rest, hsource, -, hcut, -, -, hscan⟩
  · exact ⟨_, _, by rwa [hscan]⟩
  · exact ⟨_, _, by rwa [hscan]⟩
  · refine ⟨k, rest, ?_⟩
    have hsame : (scan source).lexemes = ls := by rw [hsource, hscan post]
    rwa [hsame]

/-- The text up to the end of a lexeme is cut the same, whatever comes behind it, as
long as a delimiter comes first where the lexeme needs one. -/
theorem Cut.replace {column k : Nat} {text rest : Text} {all : List Lexeme}
    (h : Cut column text all k rest) : ∀ {ls ms : List Lexeme} {l : Lexeme}, all = ls ++ l :: ms →
      ∃ t tail, text = t ++ tail ∧ t ≠ [] ∧ l.stop = column + t.length ∧
        ∀ u, (l.kind.isAtom = true → Delimited u) → Cut column (t ++ u) (ls ++ [l]) l.stop u := by
  induction h with
  | rest =>
    intro ls ms l hall
    exact absurd hall.symm (List.append_ne_nil_of_right_ne_nil ls (List.cons_ne_nil l ms))
  | @blank column _ c _ _ _ hc _ ih =>
    intro ls ms l hall
    obtain ⟨t, tail, rfl, -, hstop, hcut⟩ := ih hall
    refine ⟨c :: t, tail, rfl, List.cons_ne_nil c t, ?_, fun u hu => .blank hc (hcut u hu)⟩
    rw [hstop, List.length_cons]
    omega
  | @lexeme m _ text _ _ hm hdelimited _ ih =>
    intro ls ms l hall
    cases ls with
    | nil =>
      obtain ⟨rfl, -⟩ := List.cons.inj hall
      exact ⟨m.text, text, rfl, ne_nil_of_admits hm, rfl, fun u hu => .lexeme hm hu .rest⟩
    | cons d ls =>
      obtain ⟨rfl, hrest⟩ := List.cons.inj hall
      obtain ⟨t, tail, rfl, hne, hstop, hcut⟩ := ih hrest
      refine ⟨m.text ++ t, tail, (List.append_assoc _ _ _).symm,
        List.append_ne_nil_of_right_ne_nil _ hne, ?_, fun u hu => ?_⟩
      · rw [hstop, stop, List.length_append]
        omega
      · -- Behind `m` stands what stood there before, for `t` is not empty.
        have hsame : m.kind.isAtom = true → Delimited (t ++ u) := by
          cases t with
          | nil => exact absurd rfl hne
          | cons c t => exact hdelimited
        rw [List.append_assoc]
        exact .lexeme hm hsame (hcut u hu)

/-- So the lexemes up to one of a text are those of the text up to its end, with any
others behind them. -/
theorem exists_scan_take_append {source : Text} {ls ms : List Lexeme} {l : Lexeme}
    (h : (scan source).lexemes = ls ++ l :: ms) {t : Text}
    (ht : l.kind.isAtom = true → Delimited t) :
    ∃ others, (scan (source.take l.stop ++ t)).lexemes = ls ++ l :: others := by
  obtain ⟨k, rest, hcut⟩ := exists_cut source
  obtain ⟨s, tail, rfl, -, hstop, hreplace⟩ := hcut.replace h
  have htake : (s ++ tail).take l.stop = s := by rw [hstop, Nat.zero_add, List.take_left]
  refine ⟨(scanFrom .between l.stop t).lexemes, ?_⟩
  rw [htake, scan, (hreplace t ht).scanFrom, lexemes_after, List.append_assoc,
    List.singleton_append]

end Lexeme

namespace Expr

open Lexeme Reader

theorem read_eq_iff {source : Text} {e : Expr} :
    read source = .ok e ↔ ∃ l rest, BeginsWith (scan source).lexemes e l rest := by
  simp only [read]
  constructor
  · intro h
    split at h
    · next d rest hfirst =>
      cases h
      obtain ⟨l, hl⟩ := firstFrom_eq_iff.1 hfirst
      exact ⟨l, rest, hl⟩
    · cases h
  · rintro ⟨l, rest, h⟩
    rw [firstFrom_eq_iff.2 ⟨l, h⟩]

/-- **The first expression of a text depends on nothing after it.** It is the first of
all that are read of the text. Let it be read, so that the lexemes begin with a phrase
for it, and with no other, and let `l` be the last lexeme of the phrase. Behind the text
up to the end of `l`, put nothing, or a text that begins with a delimiter, or any text
at all if `l` is a string or a closing parenthesis. The same expression is read. -/
theorem read_take_append (source : Text) :
    (∀ e, read source = .ok e ↔ (readAll source).exprs.head? = some e) ∧
    ∀ e, read source = .ok e → ∃ l rest, BeginsWith (scan source).lexemes e l rest ∧
      (∀ e' l' rest', BeginsWith (scan source).lexemes e' l' rest' → e = e' ∧ l = l') ∧
      ∀ t, (Delimited t ∨ l.kind = .string ∨ l.kind = .closing) →
        read (source.take l.stop ++ t) = .ok e := by
  refine ⟨fun e => read_eq_iff.trans head?_readFrom_iff.symm, fun e h => ?_⟩
  obtain ⟨l, rest, hbegins⟩ := read_eq_iff.1 h
  refine ⟨l, rest, hbegins, fun e' l' rest' h' => ?_, fun t ht => ?_⟩
  · obtain ⟨he, hl, -⟩ := hbegins.unique h'
    exact ⟨he, hl⟩
  · have hatom : l.kind.isAtom = true → Delimited t := by
      intro hatom
      rcases ht with ht | hkind | hkind
      · exact ht
      · rw [hkind] at hatom; cases hatom
      · rw [hkind] at hatom; cases hatom
    obtain ⟨before, hls, hreplace⟩ := hbegins.replace
    obtain ⟨others, hothers⟩ := exists_scan_take_append hls hatom
    exact read_eq_iff.2 ⟨l, others, hothers ▸ hreplace others⟩

/-- The first expression ends with the parenthesis at column 9, and what stands behind it
can be replaced by what no lexeme begins with. -/
theorem read_take_append_unreadable :
    let source : Text := ") '(a \"b\")1 ["
    read source = .ok (.quote "(a \"b\")") ∧
      (readAll source).exprs.head? = some (.quote "(a \"b\")") ∧
      source.take 10 = ") '(a \"b\")".toList ∧
      ∀ t, read (source.take 10 ++ ']' :: t) = .ok (.quote "(a \"b\")") := by
  intro source
  let mark : Lexeme := ⟨.quote, "'", 2⟩
  let opens : Lexeme := ⟨.opening, "(", 3⟩
  let name : Lexeme := ⟨.symbol, "a", 4⟩
  let string : Lexeme := ⟨.string, "\"b\"", 6⟩
  let closes : Lexeme := ⟨.closing, ")", 9⟩
  have hlexemes : (scan source).lexemes = [⟨.closing, ")", 0⟩] ++
      ([mark, opens, name, string] ++ closes :: [⟨.number, "1", 10⟩]) := by decide +kernel
  have hitems : ∀ i ∈ [([name], Expr.sym "a"), ([string], Expr.str "\"b\"")], Phrase i.1 i.2 :=
    List.forall_mem_cons.2 ⟨.symbol rfl, List.forall_mem_cons.2 ⟨.string rfl, List.forall_mem_nil _⟩⟩
  have hlist : Phrase [opens, name, string, closes] (.list [.sym "a", .str "\"b\""]) :=
    Phrase.list rfl rfl hitems
  have hrender : (Expr.list [.sym "a", .str "\"b\""]).render = "(a \"b\")".toList := by decide
  have hnone : ∀ c ∈ ([] : List Lexeme), c.kind = .closing := List.forall_mem_nil _
  have hmarked : Phrase (mark :: ([] ++ [opens, name, string, closes])) _ :=
    .quote rfl hnone hlist
  have hquote : Phrase ([mark, opens, name, string] ++ [closes]) (.quote "(a \"b\")".toList) :=
    hrender ▸ hmarked
  have hbegins : BeginsWith (scan source).lexemes (.quote "(a \"b\")") closes
      [⟨.number, "1", 10⟩] :=
    ⟨_, _, hlexemes, by simp, hquote⟩
  have hread : read source = .ok (.quote "(a \"b\")") := read_eq_iff.2 ⟨_, _, hbegins⟩
  obtain ⟨hall, hfirst⟩ := read_take_append source
  obtain ⟨l, rest, -, hunique, hreplace⟩ := hfirst _ hread
  obtain ⟨-, rfl⟩ := hunique _ _ _ hbegins
  exact ⟨hread, (hall _).1 hread, by decide, fun t => hreplace (']' :: t) (Or.inr (Or.inr rfl))⟩

end Expr

end SpliceLisp
