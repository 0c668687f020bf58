/-
# The command line

Carries out a dialogue on the standard streams: prompts and answers go to the
output, the journal to the error stream, and the history to its file. All
decisions are made elsewhere.
-/
import SpliceLisp.Dialogue

namespace SpliceLisp

namespace CommandLine

def environment : IO Environment := do
  let read (name : String) : IO (Option Text) := do return (← IO.getEnv name).map String.toList
  return ⟨← read "SUBLISP_HISTORY", ← read "SUBLISP_HISTORY_LENGTH", ← read "SUBLISP_PROMPT",
    ← read "SUBLISP_LOG_LEVEL"⟩

/-- What an error of the system means for the history. -/
def problemOf : IO.Error → History.Problem
  | .noFileOrDirectory _ _ _ => .missing
  | .inappropriateType _ code _ => if code = 21 then .directory else .notRegular
  | .permissionDenied _ code _ => .other code.toNat "Permission denied"
  | e => .other 5 e.toString

def readHistory (path : Text) : IO (Except History.Problem Text) := do
  try return .ok (← IO.FS.readFile (String.ofList path)).toList
  catch e => return .error (problemOf e)

/-- Writes a file; what prevents it, if anything. -/
def writeHistory (path contents : Text) : IO (Option History.Problem) := do
  try
    IO.FS.writeFile (String.ofList path) (String.ofList contents)
    return none
  catch e => return some (problemOf e)

/-- Carries out an effect. Records below the given rank are not shown. -/
def carryOut (least : Nat) : Effect → IO Unit
  | .prompt t => do
    IO.print (String.ofList t)
    (← IO.getStdout).flush
  | .write t => IO.println (String.ofList t)
  | .record r => (Journal.shown least [r]).forM fun line => IO.eprintln (String.ofList line)
  | .crash crash => IO.eprintln (String.ofList crash.kind)

/-- Holds a dialogue on the standard streams until it does not go on. -/
partial def converse (least : Nat) (prompt : Text) (d : Dialogue) :
    IO (Dialogue × Dialogue.Sequel) := do
  carryOut least (.prompt prompt)
  let line ← (← IO.getStdin).getLine
  if line.isEmpty then
    (Dialogue.farewell .endOfInput).forM (carryOut least)
    return (d, .close)
  let step := d.take depthLimit line.toList
  step.effects.forM (carryOut least)
  if step.sequel = .next then converse least prompt step.next
  else return (step.next, step.sequel)

/-- Holds a session under the given settings; whether it ends without breaking off. -/
def session (least : Nat) (settings : Settings) : IO Bool := do
  if !History.permits settings.historyLength then
    carryOut least (.crash .limitOutOfRange)
    return false
  let (first, loaded) := Dialogue.load settings.historyPath (← readHistory settings.historyPath)
  (Dialogue.greeting loaded).forM (carryOut least)
  let (last, sequel) ← converse least settings.prompt first
  let problem ← writeHistory settings.historyPath (last.file settings.historyLength)
  carryOut least (.record (Dialogue.saved settings.historyPath problem))
  (Dialogue.parting sequel).forM (carryOut least)
  return sequel = .close

end CommandLine

end SpliceLisp

/-- Holds a session as the environment sets it up. -/
def main : IO UInt32 := do
  let settings := SpliceLisp.Settings.ofEnvironment (← SpliceLisp.CommandLine.environment)
  match SpliceLisp.Journal.threshold? settings.logLevel with
  | some least => return if ← SpliceLisp.CommandLine.session least settings then 0 else 1
  | none =>
    IO.eprintln s!"ValueError: {String.ofList (SpliceLisp.Journal.unknownThreshold settings.logLevel)}"
    return 1
