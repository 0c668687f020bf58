/-
# What a session leaves behind

A dialogue folds turns over the lines it is given. The lines that count are those
that are not blank, without the blanks around them (`Dialogue.spoken`), up to the
first on which the session ends, and with that (`Context.heard`). Each of them is
answered with what its turn came to, in the context that the turns before it left,
only the one that ends the session is not. A value and a failure are told apart by how
their texts begin, and no failure begins as a value does (`Dialogue.map_shown_reply`).

A row of lines that each let the dialogue go on takes it from one state to another,
and what it does on the way is all there is to tell of the row (`Dialogue.Proceeds`).
Any lines are such a row, or such a row and a line that the dialogue stops at, because
it asks for the end or because the history refuses it (`Dialogue.gets`).
From that come the texts that are shown, the lines that are read and the history; the
session adds the two empty lines and the file (`Dialogue.session_transcript`). A line
that is refused breaks the session off, without the last empty line but with the
history saved (`Dialogue.session_refused`), and a limit that is refused does so before
anything else (`Dialogue.session_of_not_permits`).

Key definitions: `Context.outcomes`, `Context.heard`, `Dialogue.told`,
`Dialogue.Proceeds`.
Key theorems: `Dialogue.gets`, `Dialogue.session_transcript`,
`Dialogue.session_refused`.
-/
import Mathlib
import SpliceLisp.Dialogue
import SpliceLisp.Proofs.HistoryFile
import SpliceLisp.Proofs.Turns

namespace SpliceLisp

/-! ### Turns in a row -/

/-- Whether a turn with the outcome gets a reply, so that the session goes on. -/
def isAnswered (outcome : Except Stop Expr) : Bool := (reply outcome).isSome

theorem isAnswered_turn (depth : Nat) (line : Text) (c : Context) :
    isAnswered (turn depth line c).outcome = (answer c line depth).reply.isSome := rfl

namespace Context

/-- The outcomes of turns on the lines, each in the context that those before it
left. -/
def outcomes (depth : Nat) (c : Context) : List Text → List (Except Stop Expr)
  | [] => []
  | line :: lines =>
    (turn depth line c).outcome :: (turn depth line c).context.outcomes depth lines

/-- The lines up to the first one that gets no reply, and with that. -/
def heard (depth : Nat) (c : Context) (lines : List Text) : List Text :=
  lines.take (((c.outcomes depth lines).takeWhile isAnswered).length + 1)

section Heard

variable (depth : Nat)

theorem length_outcomes : ∀ (c : Context) (lines : List Text),
    (c.outcomes depth lines).length = lines.length
  | _, [] => rfl
  | _, _ :: lines => congrArg (· + 1) (length_outcomes _ lines)

theorem outcomes_append : ∀ (c : Context) (lines later : List Text),
    c.outcomes depth (lines ++ later) =
      c.outcomes depth lines ++ (c.afterTurns depth lines).outcomes depth later
  | _, [], _ => rfl
  | _, _ :: lines, later => congrArg (_ :: ·) (outcomes_append _ lines later)

variable {depth} {c : Context}

/-- Lines that are all answered are followed by what is heard after them. -/
theorem heard_append {lines : List Text}
    (h : ∀ o ∈ c.outcomes depth lines, isAnswered o = true) (later : List Text) :
    c.heard depth (lines ++ later) = lines ++ (c.afterTurns depth lines).heard depth later := by
  rw [heard, outcomes_append, List.takeWhile_append_of_pos h, List.length_append,
    length_outcomes, Nat.add_assoc, List.take_length_add_append]
  rfl

theorem heard_nil : c.heard depth [] = [] := List.take_nil

theorem heard_cons_of_end {line : Text} (h : (answer c line depth).reply = none)
    (lines : List Text) : c.heard depth (line :: lines) = [line] := by
  have hanswered : ¬ isAnswered (turn depth line c).outcome = true := by
    rw [isAnswered_turn, h]
    exact Bool.false_ne_true
  rw [heard, outcomes, List.takeWhile_cons_of_neg hanswered]
  rfl

theorem mem_heard_cons (line : Text) (lines : List Text) :
    line ∈ c.heard depth (line :: lines) := by
  rw [heard, List.take_succ_cons]
  exact List.mem_cons_self

end Heard

end Context

/-! ### What the effects hold -/

namespace Effect

/-- The texts that are shown. -/
def writes (effects : List Effect) : List Text :=
  effects.filterMap fun
    | write t => some t
    | prompt _ => none
    | record _ => none
    | crash _ => none

/-- The prompts: one for each line that is read or turns out to be missing. -/
def prompts (effects : List Effect) : List Text :=
  effects.filterMap fun
    | prompt t => some t
    | write _ => none
    | record _ => none
    | crash _ => none

@[simp] theorem writes_append (effects later : List Effect) :
    writes (effects ++ later) = writes effects ++ writes later := List.filterMap_append

@[simp] theorem prompts_append (effects later : List Effect) :
    prompts (effects ++ later) = prompts effects ++ prompts later := List.filterMap_append

@[simp] theorem records_append (effects later : List Effect) :
    records (effects ++ later) = records effects ++ records later := List.filterMap_append

/-! Something is reported, and one text is shown. -/

variable (rs : List Record) (text : Text)

theorem writes_exchange : writes (rs.map record ++ [.write text]) = [text] := by
  simp [writes, List.filterMap_map]

theorem prompts_exchange : prompts (rs.map record ++ [.write text]) = [] := by
  simp [prompts, List.filterMap_map]

theorem records_exchange : records (rs.map record ++ [.write text]) = rs := by
  simp [records, List.filterMap_map]

end Effect

/-! ### The journal of a turn -/

/-- Whether the dialogue itself reports the record. -/
def Record.isOfDialogue (r : Record) : Bool := r.speaker = "sublisp.repl".toList

/-- Nothing that a turn reports is reported by the dialogue itself. -/
theorem filter_records_answer (c : Context) (line : Text) (depth : Nat) :
    (answer c line depth).records.filter Record.isOfDialogue = [] := by
  refine List.filter_eq_nil_iff.2 fun r hr => Bool.eq_false_iff.1 ?_
  rcases List.mem_append.1 hr with h | h
  · obtain ⟨event, -, hevent⟩ := List.mem_filterMap.1 h
    cases event with
    | applied f source => obtain rfl := Option.some.inj hevent; rfl
    | _ => cases hevent
  · unfold depthRecord at h
    split at h
    · obtain rfl := List.mem_singleton.1 h
      rfl
    · cases h

namespace Dialogue

/-! ### One line -/

/-- The lines that count: those that are not blank, without the blanks around
them. -/
def spoken (lines : List Text) : List Text :=
  (lines.map Text.strip).filter fun line => !line.isEmpty

/-- What is shown of a turn that does not end the session: the reply, after a value
with a newline. -/
def told (outcome : Except Stop Expr) : Option Text :=
  (reply outcome).map fun text =>
    match outcome with
    | .ok _ => text ++ ['\n']
    | .error _ => text

/-- The text of no failure begins as that of a value does. -/
theorem map_shown_reply (outcome : Except Stop Expr) :
    (reply outcome).map shown = told outcome := by
  cases outcome with
  | ok value => rfl
  | error stop => cases stop <;> rfl

theorem told_turn (depth : Nat) (line : Text) (c : Context) :
    told (turn depth line c).outcome = (answer c line depth).reply.map shown :=
  (map_shown_reply _).symm

theorem spoken_append (lines later : List Text) :
    spoken (lines ++ later) = spoken lines ++ spoken later := by
  simp [spoken]

theorem spoken_of_blank {line : Text} (h : Text.strip line = []) : spoken [line] = [] := by
  simp [spoken, h]

theorem spoken_of_ne_nil {line : Text} (h : Text.strip line ≠ []) :
    spoken [line] = [Text.strip line] := by
  simp [spoken, h]

theorem spoken_cons_of_ne_nil {line : Text} (h : Text.strip line ≠ []) (lines : List Text) :
    spoken (line :: lines) = Text.strip line :: spoken lines := by
  rw [← List.singleton_append, spoken_append, spoken_of_ne_nil h]
  rfl

/-- What a line can lead to. A blank line does nothing, and one that the history refuses
breaks off. Any other goes into the history, its turn is taken, and the session ends or
the reply is shown. -/
inductive Handles (depth : Nat) (d : Dialogue) (line : Text) : Step → Prop
  | blank : Text.strip line = [] → Handles depth d line ⟨d, [], .next⟩
  | refused : Text.strip line ≠ [] → History.takes (Text.strip line) = false →
      Handles depth d line ⟨d, [], .crash .nullCharacter⟩
  | last {a : Answer} : Text.strip line ≠ [] → History.takes (Text.strip line) = true →
      answer d.context (Text.strip line) depth = a → a.reply = none → Handles depth d line
        ⟨⟨a.context, d.history ++ [Text.strip line]⟩, a.records.map .record ++ [.write []], .close⟩
  | answered {a : Answer} {text : Text} :
      Text.strip line ≠ [] → History.takes (Text.strip line) = true →
      answer d.context (Text.strip line) depth = a → a.reply = some text → Handles depth d line
        ⟨⟨a.context, d.history ++ [Text.strip line]⟩,
          a.records.map .record ++ [.write (shown text)], .next⟩

theorem handles_take (depth : Nat) (d : Dialogue) (line : Text) :
    Handles depth d line (d.take depth line) := by
  by_cases hstrip : Text.strip line = []
  · have htake : d.take depth line = ⟨d, [], .next⟩ := by rw [take, hstrip]
    rw [htake]
    exact .blank hstrip
  · have htake : d.take depth line = d.respond depth (Text.strip line) := by
      rw [take]
      split
      · next heq => exact absurd heq hstrip
      · rfl
    rw [htake]
    generalize ha : answer d.context (Text.strip line) depth = a
    cases htakes : History.takes (Text.strip line) with
    | false =>
      simp only [respond, htakes]
      exact .refused hstrip htakes
    | true =>
      simp only [respond, htakes, ha, if_true]
      cases hreply : a.reply with
      | none => exact .last hstrip htakes ha hreply
      | some text => exact .answered hstrip htakes ha hreply

/-! ### One line after the other -/

section Converse

variable {depth : Nat} {prompt : Text} {d next : Dialogue}

theorem converse_cons_of_next {line : Text} {effects : List Effect}
    (h : d.take depth line = ⟨next, effects, .next⟩) (ending : Ending) (lines : List Text) :
    d.converse depth prompt ending (line :: lines) =
      (next.converse depth prompt ending lines).after (.prompt prompt :: effects) := by
  simp only [converse, h, Step.after]
  rfl

/-- The lines after one that the dialogue stops at are not asked for. -/
theorem converse_cons_of_stop {line : Text} {effects : List Effect} {sequel : Sequel}
    (h : d.take depth line = ⟨next, effects, sequel⟩) (hstop : sequel ≠ .next) (ending : Ending)
    (lines : List Text) :
    d.converse depth prompt ending (line :: lines) =
      ⟨next, .prompt prompt :: effects, sequel⟩ := by
  simp only [converse, h, Step.after]
  cases sequel with
  | next => exact absurd rfl hstop
  | close => rfl
  | crash crash => rfl

/-- Each of the lines in `read` lets the dialogue go on, and together they lead it to
`next`. What is done on the way is to prompt for each of them and to tell of the turns
on those that count. -/
structure Proceeds (depth : Nat) (prompt : Text) (d : Dialogue) (read : List Text)
    (next : Dialogue) (effects : List Effect) : Prop where
  converse (ending : Ending) (rest : List Text) : d.converse depth prompt ending (read ++ rest) =
    (next.converse depth prompt ending rest).after effects
  context : next.context = d.context.afterTurns depth (spoken read)
  history : next.history = d.history ++ spoken read
  answered : ∀ o ∈ d.context.outcomes depth (spoken read), isAnswered o = true
  writes : Effect.writes effects = (d.context.outcomes depth (spoken read)).filterMap told
  prompts : Effect.prompts effects = List.replicate read.length prompt
  records : (Effect.records effects).filter Record.isOfDialogue = []

namespace Proceeds

theorem nil : Proceeds depth prompt d [] d [] where
  converse _ _ := rfl
  context := rfl
  history := (List.append_nil _).symm
  answered := nofun
  writes := rfl
  prompts := rfl
  records := rfl

theorem append {read more : List Text} {last : Dialogue} {effects later : List Effect}
    (h : Proceeds depth prompt d read next effects)
    (h' : Proceeds depth prompt next more last later) :
    Proceeds depth prompt d (read ++ more) last (effects ++ later) where
  converse ending rest := by
    rw [List.append_assoc, h.converse, h'.converse, Step.after, Step.after, Step.after,
      List.append_assoc]
  context := by rw [h'.context, h.context, spoken_append, Context.afterTurns_append]
  history := by rw [h'.history, h.history, spoken_append, List.append_assoc]
  answered := by
    rw [spoken_append, Context.outcomes_append, ← h.context]
    exact fun o ho => (List.mem_append.1 ho).elim (h.answered o) (h'.answered o)
  writes := by
    rw [Effect.writes_append, h.writes, h'.writes, h.context, spoken_append,
      Context.outcomes_append, List.filterMap_append]
  prompts := by
    rw [Effect.prompts_append, h.prompts, h'.prompts, List.length_append, List.replicate_add]
  records := by rw [Effect.records_append, List.filter_append, h.records, h'.records]; rfl

theorem blank {line : Text} (hblank : Text.strip line = [])
    (htake : d.take depth line = ⟨d, [], .next⟩) :
    Proceeds depth prompt d [line] d [.prompt prompt] where
  converse := converse_cons_of_next htake
  context := by rw [spoken_of_blank hblank]; rfl
  history := by rw [spoken_of_blank hblank, List.append_nil]
  answered := by rw [spoken_of_blank hblank]; exact nofun
  writes := by rw [spoken_of_blank hblank]; rfl
  prompts := rfl
  records := rfl

theorem exchange {line text : Text} (hline : Text.strip line ≠ []) :
    let a := answer d.context (Text.strip line) depth
    let next : Dialogue := ⟨a.context, d.history ++ [Text.strip line]⟩
    let effects := a.records.map Effect.record ++ [.write (shown text)]
    a.reply = some text → d.take depth line = ⟨next, effects, .next⟩ →
      Proceeds depth prompt d [line] next (.prompt prompt :: effects) := by
  intro a next effects hreply htake
  have htold : told (turn depth (Text.strip line) d.context).outcome = some (shown text) := by
    rw [told_turn, hreply]
    rfl
  exact {
    converse := converse_cons_of_next htake
    context := by rw [spoken_of_ne_nil hline]; rfl
    history := by rw [spoken_of_ne_nil hline]
    answered := by
      rw [spoken_of_ne_nil hline]
      refine List.forall_mem_singleton.2 ?_
      rw [isAnswered_turn, hreply]
      rfl
    writes := by
      rw [spoken_of_ne_nil hline, Context.outcomes, List.filterMap_cons_some htold]
      exact Effect.writes_exchange a.records (shown text)
    prompts := congrArg (prompt :: ·) (Effect.prompts_exchange a.records (shown text))
    records := (congrArg (List.filter Record.isOfDialogue)
      (Effect.records_exchange a.records (shown text))).trans (filter_records_answer _ _ _) }

/-- What is heard begins with the lines that are read. -/
theorem heard {read : List Text} {effects : List Effect}
    (h : Proceeds depth prompt d read next effects) (rest : List Text) :
    d.context.heard depth (spoken (read ++ rest)) =
      spoken read ++ next.context.heard depth (spoken rest) := by
  rw [spoken_append, Context.heard_append h.answered, h.context]

end Proceeds

/-- The dialogue stops at the line: the history refuses it, or it gets no reply. -/
inductive Stops (depth : Nat) (d : Dialogue) (line : Text) : Prop
  | refused : Text.strip line ≠ [] → History.takes (Text.strip line) = false → Stops depth d line
  | last : Text.strip line ≠ [] → History.takes (Text.strip line) = true →
      (answer d.context (Text.strip line) depth).reply = none → Stops depth d line

theorem Stops.strip_ne_nil {line : Text} (h : Stops depth d line) : Text.strip line ≠ [] := by
  cases h <;> assumption

/-- How far the dialogue gets: through all lines, or through some and no further than
the next. -/
inductive Gets (depth : Nat) (prompt : Text) (d : Dialogue) : List Text → Prop
  | through {lines : List Text} {next : Dialogue} {effects : List Effect} :
      Proceeds depth prompt d lines next effects → Gets depth prompt d lines
  | upTo {read : List Text} {next : Dialogue} {effects : List Effect} {line : Text}
      (unread : List Text) : Proceeds depth prompt d read next effects →
      Stops depth next line → Gets depth prompt d (read ++ line :: unread)

theorem Gets.cons {line : Text} {lines : List Text} {effects : List Effect}
    (h : Proceeds depth prompt d [line] next effects) (hlines : Gets depth prompt next lines) :
    Gets depth prompt d (line :: lines) := by
  cases hlines with
  | through h' => exact .through (h.append h')
  | upTo unread h' hstop => exact .upTo unread (h.append h') hstop

/-- Whatever the lines are, the dialogue gets through them or stops at one. -/
theorem gets (depth : Nat) (prompt : Text) : ∀ (lines : List Text) (d : Dialogue),
    Gets depth prompt d lines
  | [], d => .through .nil
  | line :: lines, d => by
    generalize htake : d.take depth line = step
    have hhandles : Handles depth d line step := htake ▸ handles_take depth d line
    cases hhandles with
    | blank hblank => exact (gets depth prompt lines d).cons (.blank hblank htake)
    | refused hline htakes => exact .upTo lines .nil (.refused hline htakes)
    | last hline htakes ha hreply => exact .upTo lines .nil (.last hline htakes (ha ▸ hreply))
    | answered hline htakes ha hreply =>
      subst ha
      exact (gets depth prompt lines _).cons (.exchange hline hreply htake)

/-- The dialogue gets through lines that are all answered and that the history takes. -/
theorem exists_proceeds {lines : List Text}
    (hanswered : ∀ o ∈ d.context.outcomes depth (spoken lines), isAnswered o = true)
    (htakes : ∀ line ∈ spoken lines, History.takes line = true) :
    ∃ next effects, Proceeds depth prompt d lines next effects := by
  cases gets depth prompt lines d with
  | through h => exact ⟨_, _, h⟩
  | upTo unread h hstop =>
    rw [spoken_append, spoken_cons_of_ne_nil hstop.strip_ne_nil] at hanswered htakes
    cases hstop with
    | refused _ hrefused =>
      have htaken := htakes _ (List.mem_append_right _ List.mem_cons_self)
      rw [hrefused] at htaken
      cases htaken
    | last _ _ hend =>
      rw [Context.outcomes_append, ← h.context] at hanswered
      have hreply := hanswered _ (List.mem_append_right _ List.mem_cons_self)
      rw [isAnswered_turn, hend] at hreply
      cases hreply

/-- What a dialogue comes to that nothing breaks off. It tells of the turns on the lines
that it hears, shows an empty line in the end, and keeps these lines. Either a line that
is read ends it: that is the last to be asked for, and what stands behind it and the
ending do not matter. Or all lines are read, and each that counts is answered. -/
structure Closes (depth : Nat) (prompt : Text) (ending : Ending) (d : Dialogue)
    (lines : List Text) : Prop where
  sequel : (d.converse depth prompt ending lines).sequel = .close
  history : (d.converse depth prompt ending lines).next.history =
    d.history ++ d.context.heard depth (spoken lines)
  writes : Effect.writes (d.converse depth prompt ending lines).effects =
    (d.context.outcomes depth (d.context.heard depth (spoken lines))).filterMap told ++ [[]]
  records : (Effect.records (d.converse depth prompt ending lines).effects).filter
    Record.isOfDialogue = []
  reads : (∃ read line unread, lines = read ++ line :: unread ∧
      d.context.heard depth (spoken lines) = spoken read ++ [Text.strip line] ∧
      (answer (d.context.afterTurns depth (spoken read)) (Text.strip line) depth).reply = none ∧
      Effect.prompts (d.converse depth prompt ending lines).effects =
        List.replicate (read.length + 1) prompt ∧
      ∀ (rest : List Text) (ending' : Ending),
        d.converse depth prompt ending' (read ++ line :: rest) =
          d.converse depth prompt ending lines) ∨
    (d.context.heard depth (spoken lines) = spoken lines ∧
      (∀ o ∈ d.context.outcomes depth (spoken lines), isAnswered o = true) ∧
      Effect.prompts (d.converse depth prompt ending lines).effects =
        List.replicate (lines.length + 1) prompt)

namespace Proceeds

variable {effects : List Effect}

theorem closes {lines : List Text} (h : Proceeds depth prompt d lines next effects)
    (ending : Ending) : Closes depth prompt ending d lines := by
  have hconverse : d.converse depth prompt ending lines =
      ⟨next, effects ++ .prompt prompt :: farewell ending, .close⟩ := by
    have hnil := h.converse ending []
    rwa [List.append_nil] at hnil
  have hheard : d.context.heard depth (spoken lines) = spoken lines := by
    have hnil := h.heard []
    rw [List.append_nil] at hnil
    exact hnil.trans (by rw [show spoken [] = [] from rfl, Context.heard_nil, List.append_nil])
  have hwrites : Effect.writes (.prompt prompt :: farewell ending) = [[]] := by cases ending <;> rfl
  have hprompts : Effect.prompts (.prompt prompt :: farewell ending) = [prompt] := by
    cases ending <;> rfl
  have hrecords : Effect.records (.prompt prompt :: farewell ending) = [] := by cases ending <;> rfl
  constructor
  · rw [hconverse]
  · rw [hconverse, hheard]
    exact h.history
  · rw [hconverse, hheard, Effect.writes_append, h.writes, hwrites]
  · rw [hconverse, Effect.records_append, hrecords, List.append_nil]
    exact h.records
  · refine Or.inr ⟨hheard, h.answered, ?_⟩
    rw [hconverse, Effect.prompts_append, h.prompts, hprompts, List.replicate_succ']

theorem closes_of_end {read : List Text} {line : Text}
    (h : Proceeds depth prompt d read next effects) (hline : Text.strip line ≠ [])
    (htakes : History.takes (Text.strip line) = true)
    (hend : (answer next.context (Text.strip line) depth).reply = none)
    (unread : List Text) (ending : Ending) :
    Closes depth prompt ending d (read ++ line :: unread) := by
  generalize htake : next.take depth line = step
  have hhandles : Handles depth next line step := htake ▸ handles_take depth next line
  have hheard : d.context.heard depth (spoken (read ++ line :: unread)) =
      spoken read ++ [Text.strip line] := by
    rw [h.heard, spoken_cons_of_ne_nil hline, Context.heard_cons_of_end hend]
  cases hhandles with
  | blank hblank => exact absurd hblank hline
  | refused _ hrefused => rw [htakes] at hrefused; cases hrefused
  | answered _ _ ha hreply => rw [ha, hreply] at hend; cases hend
  | @last a _ _ ha _ =>
    have hconverse : ∀ ending' rest, d.converse depth prompt ending' (read ++ line :: rest) =
        ⟨⟨a.context, next.history ++ [Text.strip line]⟩,
          effects ++ .prompt prompt :: (a.records.map .record ++ [.write []]), .close⟩ := by
      intro ending' rest
      rw [h.converse, converse_cons_of_stop htake nofun]
      rfl
    have htold : told (turn depth (Text.strip line) next.context).outcome = none := by
      rw [told_turn, hend]
      rfl
    have hnothing : (next.context.outcomes depth [Text.strip line]).filterMap told = [] :=
      List.filterMap_cons_none htold
    have hwrites : Effect.writes (.prompt prompt :: (a.records.map .record ++ [.write []])) = [[]] :=
      Effect.writes_exchange a.records []
    have hprompts : Effect.prompts (.prompt prompt :: (a.records.map .record ++ [.write []])) =
        [prompt] := congrArg (prompt :: ·) (Effect.prompts_exchange a.records [])
    have hrecords : Effect.records (.prompt prompt :: (a.records.map .record ++ [.write []])) =
        a.records := Effect.records_exchange a.records []
    constructor
    · rw [hconverse]
    · rw [hconverse, hheard, h.history, List.append_assoc]
    · rw [hconverse, hheard, Context.outcomes_append, ← h.context, List.filterMap_append,
        hnothing, List.append_nil, Effect.writes_append, h.writes, hwrites]
    · rw [hconverse, Effect.records_append, List.filter_append, h.records, hrecords, ← ha]
      exact filter_records_answer _ _ _
    · refine Or.inl ⟨read, line, unread, rfl, hheard, h.context ▸ hend, ?_, fun rest ending' => ?_⟩
      · rw [hconverse, Effect.prompts_append, h.prompts, hprompts, List.replicate_succ']
      · rw [hconverse, hconverse]

theorem converse_of_refused {read : List Text} {line : Text}
    (h : Proceeds depth prompt d read next effects) (hline : Text.strip line ≠ [])
    (hrefused : History.takes (Text.strip line) = false) (unread : List Text) (ending : Ending) :
    d.converse depth prompt ending (read ++ line :: unread) =
      ⟨next, effects ++ [.prompt prompt], .crash .nullCharacter⟩ := by
  generalize htake : next.take depth line = step
  have hhandles : Handles depth next line step := htake ▸ handles_take depth next line
  cases hhandles with
  | blank hblank => exact absurd hblank hline
  | last _ htakes | answered _ htakes => rw [hrefused] at htakes; cases htakes
  | refused _ _ =>
    rw [h.converse, converse_cons_of_stop htake nofun]
    rfl

end Proceeds

/-- Nothing breaks a dialogue off that hears no line that the history refuses. -/
theorem closes_of_takes {lines : List Text} (ending : Ending)
    (htakes : ∀ line ∈ d.context.heard depth (spoken lines), History.takes line = true) :
    Closes depth prompt ending d lines := by
  cases gets depth prompt lines d with
  | through h => exact h.closes ending
  | upTo unread h hstop =>
    cases hstop with
    | last hline htaken hend => exact h.closes_of_end hline htaken hend unread ending
    | refused hline hrefused =>
      rw [h.heard, spoken_cons_of_ne_nil hline] at htakes
      have htaken := htakes _ (List.mem_append_right _ (Context.mem_heard_cons _ _))
      rw [hrefused] at htaken
      cases htaken

end Converse

/-! ### A whole session -/

theorem load_fst (path : Text) (contents : Except History.Problem Text) :
    (load path contents).1 = ⟨Context.startup, History.found contents⟩ := by
  cases contents with
  | ok contents => rfl
  | error problem => cases problem <;> rfl

theorem isOfDialogue_load (path : Text) (contents : Except History.Problem Text) :
    (load path contents).2.isOfDialogue = true := by
  cases contents with
  | ok contents => rfl
  | error problem => cases problem <;> rfl

theorem isOfDialogue_saved (path : Text) (writing : Option History.Problem) :
    (saved path writing).isOfDialogue = true := by
  cases writing <;> rfl

section Session

variable {settings : Settings} (lines : List Text) (ending : Ending)
  (contents : Except History.Problem Text) (writing : Option History.Problem) (depth : Nat)

/-- A limit that the history refuses breaks the session off before anything else. -/
theorem session_of_not_permits (h : History.permits settings.historyLength = false) :
    session settings lines ending contents writing depth =
      ([.crash .limitOutOfRange], contents.toOption.getD []) := by
  simp only [session, h]
  rfl

theorem session_eq (h : History.permits settings.historyLength = true) :
    session settings lines ending contents writing depth =
      let first : Dialogue := ⟨Context.startup, History.found contents⟩
      let talk := first.converse depth settings.prompt ending lines
      (greeting (load settings.historyPath contents).2 ++ talk.effects ++
          .record (saved settings.historyPath writing) :: parting talk.sequel,
        if writing = none then History.toFile settings.historyLength talk.next.history
        else contents.toOption.getD []) := by
  simp only [session, h, if_true, load_fst]
  rfl

end Session

/-! What a session is whose dialogue nothing breaks off. -/

section Closing

variable {settings : Settings} {lines : List Text} {ending : Ending}
  {contents : Except History.Problem Text} {writing : Option History.Problem} {depth : Nat}
  (hlimit : History.permits settings.historyLength = true)
  (h : Closes depth settings.prompt ending ⟨Context.startup, History.found contents⟩ lines)
include hlimit h

/-- The dialogue stands between what is done about loading and about saving. -/
theorem effects_of_closes :
    (session settings lines ending contents writing depth).1 =
      greeting (load settings.historyPath contents).2 ++
        (converse depth settings.prompt ending ⟨Context.startup, History.found contents⟩
          lines).effects ++ [.record (saved settings.historyPath writing)] := by
  rw [session_eq _ _ _ _ _ hlimit]
  simp only [h.sequel, parting]

theorem writes_of_closes :
    Effect.writes (session settings lines ending contents writing depth).1 =
      [] :: ((Context.startup.outcomes depth
        (Context.startup.heard depth (spoken lines))).filterMap told ++ [[]]) := by
  rw [effects_of_closes hlimit h, Effect.writes_append, Effect.writes_append, h.writes]
  exact List.append_nil _

theorem prompts_of_closes :
    Effect.prompts (session settings lines ending contents writing depth).1 =
      Effect.prompts (converse depth settings.prompt ending
        ⟨Context.startup, History.found contents⟩ lines).effects := by
  rw [effects_of_closes hlimit h, Effect.prompts_append, Effect.prompts_append]
  exact List.append_nil _

theorem records_of_closes :
    (Effect.records (session settings lines ending contents writing depth).1).filter
        Record.isOfDialogue =
      [(load settings.historyPath contents).2, saved settings.historyPath writing] := by
  rw [effects_of_closes hlimit h, Effect.records_append, Effect.records_append,
    List.filter_append, List.filter_append, h.records]
  simp [Effect.records, greeting, isOfDialogue_load, isOfDialogue_saved]

theorem file_of_closes (hwriting : writing = none) :
    (session settings lines ending contents writing depth).2 =
      History.ofLines (History.lastOf settings.historyLength
        ((History.found contents ++ Context.startup.heard depth (spoken lines)).flatMap
          (List.splitOn '\n'))) := by
  rw [session_eq _ _ _ _ _ hlimit, ← History.toFile_eq]
  simp only [hwriting, if_true, h.history]

end Closing

section Course

variable (depth : Nat) {settings : Settings}
  (hlimit : -2147483648 ≤ settings.historyLength ∧ settings.historyLength ≤ 2147483647)
include hlimit

/-- **A session is a fold of turns.** Let a session be given any lines, whatever ends
them, and let those that are heard be the ones that are not blank, without the blanks
around them, up to the first whose turn gets no reply, and with that. Let none of them
hold a null character, and the limit of the history be an integer of 32 bits.

What is shown is an empty line, what there is to tell of the turn on each line that is
heard, in the context that those before it left, and an empty line. Either a line that
is read ends the session: it is the last that is asked for, and the lines behind it and
the ending do not matter. Or each line is read, what is heard is all there is to hear,
and all of it is answered. Exactly the lines that are heard are added to the history,
which is saved once, after everything else.

The lines that the history begins with are those of the file, as they are where there
is nothing in them that reading leaves out. The file, if it can be written, then holds
the last of the lines that the found ones and the heard ones take up, as many as the
limit says, or all under a negative limit. Lines that hold no newline take up
themselves. -/
theorem session_transcript (lines : List Text) (ending : Ending)
    (contents : Except History.Problem Text) (writing : Option History.Problem)
    (hnull : ∀ line ∈ Context.startup.heard depth (spoken lines), '\x00' ∉ line) :
    let effects := (session settings lines ending contents writing depth).1
    let file := (session settings lines ending contents writing depth).2
    let heard := Context.startup.heard depth (spoken lines)
    let loaded := load settings.historyPath contents
    let saved := saved settings.historyPath writing
    let history := History.found contents ++ heard
    let taken := history.flatMap (List.splitOn '\n')
    Effect.writes effects =
      [] :: ((Context.startup.outcomes depth heard).filterMap told ++ [[]]) ∧
    ((∃ read line unread, lines = read ++ line :: unread ∧
        heard = spoken read ++ [Text.strip line] ∧
        (answer (Context.startup.afterTurns depth (spoken read)) (Text.strip line) depth).reply =
          none ∧
        Effect.prompts effects = List.replicate (read.length + 1) settings.prompt ∧
        ∀ (rest : List Text) (ending' : Ending),
          session settings (read ++ line :: rest) ending' contents writing depth =
            (effects, file)) ∨
      (heard = spoken lines ∧
        (∀ o ∈ Context.startup.outcomes depth heard, isAnswered o = true) ∧
        Effect.prompts effects = List.replicate (lines.length + 1) settings.prompt)) ∧
    (loaded.1.converse depth settings.prompt ending lines).next.history = history ∧
    ((Effect.records effects).filter Record.isOfDialogue = [loaded.2, saved] ∧
      effects.getLast? = some (.record saved)) ∧
    (∀ old : List Text,
      (∀ l ∈ old, l ≠ [] ∧ '\n' ∉ l ∧ '\x00' ∉ l ∧ l.getLast? ≠ some '\r') →
      (∀ c cs, old.head? = some ('#' :: c :: cs) → c.isDigit = false) →
      contents = .ok (old.flatMap fun l => l ++ ['\n']) → History.found contents = old) ∧
    ((∀ line ∈ heard, '\n' ∉ line) → taken = history) ∧
    (writing = none →
      (settings.historyLength < 0 → file = taken.flatMap fun l => l ++ ['\n']) ∧
      ∀ n : Nat, settings.historyLength = n →
        file = (taken.rtake n).flatMap fun l => l ++ ['\n']) := by
  intro effects file heard loaded saved history taken
  have hpermits : History.permits settings.historyLength = true := History.permits_iff.2 hlimit
  have hcloses : Closes depth settings.prompt ending ⟨Context.startup, History.found contents⟩
      lines := closes_of_takes ending fun line hline => History.takes_iff.2 (hnull line hline)
  have hprompts : Effect.prompts effects = Effect.prompts (converse depth settings.prompt ending
      ⟨Context.startup, History.found contents⟩ lines).effects := prompts_of_closes hpermits hcloses
  refine ⟨writes_of_closes hpermits hcloses, ?_, ?_, ⟨records_of_closes hpermits hcloses, ?_⟩,
    ?_, ?_, ?_⟩
  · rcases hcloses.reads with
      ⟨read, line, unread, hsplit, hheard, hend, hread, hsame⟩ | ⟨hheard, hanswered, hread⟩
    · refine Or.inl ⟨read, line, unread, hsplit, hheard, hend, hprompts.trans hread,
        fun rest ending' => ?_⟩
      have hsession := fun lines ending => session_eq lines ending contents writing depth hpermits
      calc session settings (read ++ line :: rest) ending' contents writing depth =
        session settings lines ending contents writing depth := by simp only [hsession, hsame]
      _ = (effects, file) := rfl
    · refine Or.inr ⟨hheard, ?_, hprompts.trans hread⟩
      rw [show heard = spoken lines from hheard]
      exact hanswered
  · rw [load_fst]
    exact hcloses.history
  · exact (congrArg List.getLast? (effects_of_closes hpermits hcloses)).trans
      List.getLast?_concat
  · rintro old hold hstamp rfl
    exact History.found_ofLines hold hstamp
  · intro hlines
    refine History.flatMap_splitOn fun line hline => ?_
    exact (List.mem_append.1 hline).elim History.not_mem_of_mem_found (hlines line)
  · intro hwriting
    have hfile : file = History.ofLines (History.lastOf settings.historyLength taken) :=
      file_of_closes hpermits hcloses hwriting
    refine ⟨fun hneg => ?_, fun n hn => ?_⟩
    · rw [hfile, History.lastOf_of_neg hneg]
      rfl
    · rw [hfile, hn, History.lastOf_natCast]
      rfl

/-- **A line with a null character breaks a session off.** If the lines before it are all
answered, that is the last thing that happens: there is no answer to the line and no
empty line in the end, but the history is saved, with the lines before it. -/
theorem session_refused {read : List Text} {line : Text}
    (hanswered : ∀ o ∈ Context.startup.outcomes depth (spoken read), isAnswered o = true)
    (hread : ∀ l ∈ spoken read, '\x00' ∉ l) (hline : '\x00' ∈ line) (unread : List Text)
    (ending : Ending) (contents : Except History.Problem Text)
    (writing : Option History.Problem) :
    let run := session settings (read ++ line :: unread) ending contents writing depth
    Effect.writes run.1 = [] :: (Context.startup.outcomes depth (spoken read)).filterMap told ∧
    Effect.prompts run.1 = List.replicate (read.length + 1) settings.prompt ∧
    run.1.getLast? = some (.crash .nullCharacter) ∧
    (writing = none → run.2 =
      History.toFile settings.historyLength (History.found contents ++ spoken read)) := by
  intro run
  have hmem : '\x00' ∈ Text.strip line := Text.mem_strip_of_not_isBlank hline (by decide)
  have hstrip : Text.strip line ≠ [] := List.ne_nil_of_mem hmem
  have hrefused : History.takes (Text.strip line) = false :=
    Bool.eq_false_iff.2 fun h => History.takes_iff.1 h hmem
  obtain ⟨next, effects, h⟩ : ∃ next effects, Proceeds depth settings.prompt
      ⟨Context.startup, History.found contents⟩ read next effects :=
    exists_proceeds hanswered fun l hl => History.takes_iff.2 (hread l hl)
  have hrun : run = (greeting (load settings.historyPath contents).2 ++
      (effects ++ [.prompt settings.prompt]) ++
        [.record (saved settings.historyPath writing), .crash .nullCharacter],
      if writing = none then History.toFile settings.historyLength next.history
      else contents.toOption.getD []) := by
    simp only [run, session_eq _ _ _ _ _ (History.permits_iff.2 hlimit),
      h.converse_of_refused hstrip hrefused]
    rfl
  refine ⟨?_, ?_, ?_, fun hwriting => ?_⟩
  · rw [hrun, Effect.writes_append, Effect.writes_append, Effect.writes_append, h.writes]
    simp [Effect.writes, greeting]
  · rw [hrun, Effect.prompts_append, Effect.prompts_append, Effect.prompts_append, h.prompts,
      List.replicate_succ']
    simp [Effect.prompts, greeting]
  · rw [hrun]
    simp
  · rw [hrun, if_pos hwriting, h.history]

end Course

/-- Two values, a failure and a line that ends the session before the last line is
read. Of the history that is found the first line is given up. -/
theorem session_transcript_ended :
    let settings : Settings := { Settings.default with historyLength := 5 }
    let lines : List Text := ["", "  (let a 1)", "b", "(+ a 1) ", "(quit)", "a"]
    let shown : List Text := ["", "> 1\n", "error: undefined symbol `Sym('b')`", "> 2\n", ""]
    let contents : Except History.Problem Text := .ok "old\n(+ 1 1)\n"
    let run := session settings lines .interrupt contents none
    (-2147483648 ≤ settings.historyLength ∧ settings.historyLength ≤ 2147483647 ∧
      ∀ line ∈ Context.startup.heard depthLimit (spoken lines), '\x00' ∉ line) ∧
    Effect.writes run.1 = shown ∧ History.found contents = ["old".toList, "(+ 1 1)".toList] ∧
      run.2 = "(+ 1 1)\n(let a 1)\nb\n(+ a 1)\n(quit)\n".toList := by
  intro settings lines shown contents run
  let heard : List Text := ["(let a 1)", "b", "(+ a 1)", "(quit)"]
  have hlimit : -2147483648 ≤ settings.historyLength ∧ settings.historyLength ≤ 2147483647 := by
    decide
  have hheard : Context.startup.heard depthLimit (spoken lines) = heard := by decide +kernel
  have hnull : ∀ line ∈ Context.startup.heard depthLimit (spoken lines), '\x00' ∉ line := by
    rw [hheard]
    decide +kernel
  have htold : [] :: ((Context.startup.outcomes depthLimit heard).filterMap told ++ [[]]) =
      shown := by decide +kernel
  obtain ⟨hwrites, -, -, -, hfound, htaken, hfile⟩ :=
    session_transcript depthLimit hlimit lines .interrupt contents none hnull
  have hold := hfound ["old", "(+ 1 1)"] (by decide +kernel) (fun _ _ h => by cases h)
    (by decide +kernel)
  rw [hheard] at hwrites htaken hfile
  refine ⟨⟨hlimit.1, hlimit.2, hnull⟩, hwrites.trans htold, hold, ?_⟩
  refine ((hfile rfl).2 5 rfl).trans ?_
  rw [htaken (by decide +kernel), hold]
  decide +kernel

/-- A line that holds a newline can be cut in two, a line with a null character is
neither answered nor kept, and a limit of more than 32 bits lets no session begin. -/
theorem session_transcript_ne :
    let limitedTo (n : Int) : Settings := { Settings.default with historyLength := n }
    let heard (lines : List Text) := Context.startup.heard depthLimit (spoken lines)
    let shown (lines : List Text) : List Text :=
      [] :: ((Context.startup.outcomes depthLimit (heard lines)).filterMap told ++ [[]])
    let last (n : Nat) (old lines : List Text) : Text :=
      ((old ++ heard lines).rtake n).flatMap fun l => l ++ ['\n']
    let cut := session (limitedTo 1) ["(+ 1\n2)"] .endOfInput (.ok "h\n") none
    let refused := session (limitedTo 1) ["\"a\x00b\"", "1"] .endOfInput (.ok "h\n") none
    let unbegun := session (limitedTo 2147483648) ["1"] .endOfInput (.ok "h\n") none
    (cut.2 = "2)\n".toList ∧ last 1 ["h"] ["(+ 1\n2)"] = "(+ 1\n2)\n".toList) ∧
    (Effect.writes refused.1 = [[]] ∧ refused.2 = "h\n".toList ∧
      shown ["\"a\x00b\"", "1"] = ["", "> \"a\x00b\"\n", "> 1\n", ""] ∧
      last 1 ["h"] ["\"a\x00b\"", "1"] = "1\n".toList) ∧
    (Effect.writes unbegun.1 = [] ∧ unbegun.2 = "h\n".toList ∧ shown ["1"] = ["", "> 1\n", ""] ∧
      last 2147483648 ["h"] ["1"] = "h\n1\n".toList) := by
  intro limitedTo heard shown last cut refused unbegun
  refine ⟨⟨?_, ?_⟩, ⟨?_, ?_, ?_, ?_⟩, ?_, ?_, ?_, ?_⟩ <;> decide +kernel

end Dialogue

end SpliceLisp
