/-
# The journal

What a session reports beside its answers: records, each with a severity, the
part of the program that speaks, and a message. A reader of the journal sees
the records from a chosen severity up.

Key definitions: `Record`, `Record.line`, `Journal.threshold?`,
`Event.record?`.
-/
import SpliceLisp.Evaluation.Basic

namespace SpliceLisp

inductive Severity where
  | debug
  | warning
deriving DecidableEq, Repr

namespace Severity

/-- The word for a severity. -/
def label : Severity → Text
  | debug => "DEBUG"
  | warning => "WARNING"

/-- The place of a severity on the scale that thresholds use. -/
def rank : Severity → Nat
  | debug => 10
  | warning => 30

end Severity

/-- A message of the journal, with how much it matters and the part of the program that
speaks. -/
structure Record where
  severity : Severity
  speaker : Text
  message : Text
deriving DecidableEq, Repr

namespace Record

def line (r : Record) : Text := r.severity.label ++ ":" ++ r.speaker ++ ":" ++ r.message

def ofApplication (message : Text) : Record := ⟨.debug, "sublisp.evaluation.apply", message⟩

def ofInterpreter (message : Text) : Record := ⟨.debug, "sublisp.interpreter", message⟩

def ofDialogue (severity : Severity) (message : Text) : Record :=
  ⟨severity, "sublisp.repl", message⟩

end Record

namespace Journal

/-- The least rank that is shown under a threshold of this name. -/
def threshold? (name : Text) : Option Nat :=
  if name = "CRITICAL".toList ∨ name = "FATAL".toList then some 50
  else if name = "ERROR".toList then some 40
  else if name = "WARNING".toList ∨ name = "WARN".toList then some 30
  else if name = "INFO".toList then some 20
  else if name = "DEBUG".toList then some 10
  else if name = "NOTSET".toList then some 0
  else none

/-- The complaint about a threshold of an unknown name. -/
def unknownThreshold (name : Text) : Text := "Unknown level: " ++ Text.quoted name

/-- The lines that are shown of the records from a rank up. -/
def shown (least : Nat) (records : List Record) : List Text :=
  (records.filter fun r => least ≤ r.severity.rank).map Record.line

end Journal

/-- The record of an event: the application of a function is reported with the
text that its body becomes. -/
def Event.record? : Event → Option Record
  | .applied function source =>
    some (.ofApplication ("apply " ++ function.render ++ " -> " ++ source))
  | _ => none

def Run.records {α : Type} (r : Run α) : List Record := r.events.filterMap Event.record?

end SpliceLisp
