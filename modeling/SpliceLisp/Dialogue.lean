/-
# The dialogue

A session with a person: it prompts for a line, answers, and goes on until the
lines end, the person interrupts, or a line asks to end. Blanks around a line
do not count, and a blank line is passed over in silence. Every other line goes
into the history, also one that fails or that ends the session.

A value is followed by an empty line, an error is not. The dialogue begins and
ends with an empty line, and the history is saved in the end, whatever the end.

The history refuses a line with a null character. Nothing catches that: the line
is not answered, and the session breaks off once the history is saved. A limit
that the history refuses breaks it off before anything else.

What the dialogue does to the outside is a list of effects; carrying them out is
left to the caller.

Key definitions: `Effect`, `Dialogue.take`, `Dialogue.converse`,
`Dialogue.session`.
-/
import SpliceLisp.History
import SpliceLisp.Settings
import SpliceLisp.Turn

namespace SpliceLisp

/-- What breaks a session off. -/
inductive Crash where
  | nullCharacter
  | limitOutOfRange
deriving DecidableEq, Repr

/-- The kind of error that a session breaks off with. -/
def Crash.kind : Crash → Text
  | .nullCharacter => "ValueError"
  | .limitOutOfRange => "OverflowError"

/-- Something that a dialogue does to the outside: it prompts for a line, shows a text
with the end of the line after it, adds a record to the journal, or breaks off. -/
inductive Effect where
  | prompt (text : Text)
  | write (text : Text)
  | record (record : Record)
  | crash (crash : Crash)
deriving DecidableEq, Repr

/-- The context of a session and the lines of its history, the oldest one first. -/
structure Dialogue where
  context : Context
  history : List Text

/-- How lines can come to an end: there are no more, or the person interrupts. -/
inductive Ending where
  | endOfInput
  | interrupt
deriving DecidableEq, Repr

namespace Dialogue

def initial : Dialogue := ⟨Context.startup, []⟩

/-- What is shown of a reply: a value, which begins with `>`, is followed by an
empty line. -/
def shown (reply : Text) : Text := if reply.head? = some '>' then reply ++ ['\n'] else reply

/-- How a dialogue goes on: with another line, not at all, or not even with the farewell
that an end has. -/
inductive Sequel where
  | next
  | close
  | crash (crash : Crash)
deriving DecidableEq, Repr

/-- What lines lead to: the dialogue afterwards, what is done, and how it goes on. -/
structure Step where
  next : Dialogue
  effects : List Effect
  sequel : Sequel

/-- The step with something done before it. -/
def Step.after (effects : List Effect) (step : Step) : Step :=
  { step with effects := effects ++ step.effects }

/-- Takes a line that is not blank and has no blanks around it. -/
def respond (depth : Nat) (d : Dialogue) (line : Text) : Step :=
  if History.takes line then
    let a := answer d.context line depth
    let next : Dialogue := ⟨a.context, d.history ++ [line]⟩
    let records := a.records.map Effect.record
    match a.reply with
    | none => ⟨next, records ++ [.write []], .close⟩
    | some reply => ⟨next, records ++ [.write (shown reply)], .next⟩
  else ⟨d, [], .crash .nullCharacter⟩

def take (depth : Nat) (d : Dialogue) (line : Text) : Step :=
  match Text.strip line with
  | [] => ⟨d, [], .next⟩
  | stripped => d.respond depth stripped

/-- What is done when the lines end: either way an empty line is shown. -/
def farewell : Ending → List Effect
  | .endOfInput => [.write []]
  | .interrupt => [.write []]

/-- Takes one line after the other, prompting for each, until it does not go on. -/
def converse (depth : Nat) (prompt : Text) (ending : Ending) (d : Dialogue) : List Text → Step
  | [] => ⟨d, .prompt prompt :: farewell ending, .close⟩
  | line :: lines =>
    let step := (d.take depth line).after [.prompt prompt]
    match step.sequel with
    | .next => (converse depth prompt ending step.next lines).after step.effects
    | _ => step

/-! ### The history -/

/-- Begins a dialogue with the contents of the history file, or without them if
it cannot be read: the dialogue and what is reported. -/
def load (path : Text) : Except History.Problem Text → Dialogue × Record
  | .ok contents =>
    ({ initial with history := History.ofFile contents },
      .ofDialogue .debug ("loaded history from " ++ path))
  | .error .missing => (initial, .ofDialogue .debug ("no history file at " ++ path ++ " yet"))
  | .error problem =>
    (initial, .ofDialogue .warning
      ("could not read history file " ++ path ++ ": " ++ problem.message))

/-- The history file that a dialogue leaves. -/
def file (d : Dialogue) (limit : Int) : Text := History.toFile limit d.history

/-- What is reported about saving the history. -/
def saved (path : Text) : Option History.Problem → Record
  | none => .ofDialogue .debug ("saved history to " ++ path)
  | some problem =>
    .ofDialogue .warning ("could not write history file " ++ path ++ ": " ++ problem.message)

/-- What is done before the first prompt. -/
def greeting (loaded : Record) : List Effect := [.record loaded, .write []]

/-- What is done last of all. -/
def parting : Sequel → List Effect
  | .next | .close => []
  | .crash crash => [.crash crash]

/-- A session from its beginning to its end: what is done, and what the history file
holds in the end. What it holds at first and whether it can be written is said by
`contents` and `writing`; a file that is not there holds nothing. -/
def session (settings : Settings) (lines : List Text) (ending : Ending)
    (contents : Except History.Problem Text) (writing : Option History.Problem)
    (depth : Nat := depthLimit) : List Effect × Text :=
  let before := contents.toOption.getD []
  if History.permits settings.historyLength then
    let (first, loaded) := load settings.historyPath contents
    let talk := first.converse depth settings.prompt ending lines
    (greeting loaded ++ talk.effects ++
        .record (saved settings.historyPath writing) :: parting talk.sequel,
      if writing = none then talk.next.file settings.historyLength else before)
  else ([.crash .limitOutOfRange], before)

end Dialogue

/-! ### Carrying out effects as text -/

namespace Effect

/-- What the effects put on the screen, one after the other. -/
def screen (effects : List Effect) : Text :=
  effects.flatMap fun
    | prompt t => t
    | write t => t ++ ['\n']
    | record _ => []
    | crash _ => []

def records (effects : List Effect) : List Record :=
  effects.filterMap fun
    | record r => some r
    | prompt _ => none
    | write _ => none
    | crash _ => none

end Effect

end SpliceLisp
