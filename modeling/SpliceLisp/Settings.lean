/-
# Settings

Four variables of the environment set up a session: where its history is kept,
how many lines of it, the prompt, and the threshold of the journal. A variable
that is not there, and for the history also a blank one, leaves the default, as
does a length that is no integer.

The path of the history is brought to its shortest spelling: no empty steps and
none of `.`, no slash at the end, and one or exactly two slashes at the
beginning. A step `..` stays, since what it leads to is not known.

Key definitions: `Environment`, `Settings`, `Settings.ofEnvironment`,
`Settings.tidyPath`.
-/
import SpliceLisp.Text.Blank
import SpliceLisp.Text.Numeral
import SpliceLisp.Text.Uppercase

namespace SpliceLisp

/-- The variables of the environment, where they are set. -/
structure Environment where
  history : Option Text
  historyLength : Option Text
  prompt : Option Text
  logLevel : Option Text

/-- How a session is set up. All of the history is kept if its length is negative, and
the threshold of the journal is in upper case. -/
structure Settings where
  historyPath : Text
  historyLength : Int
  prompt : Text
  logLevel : Text
deriving DecidableEq, Repr

namespace Settings

/-- The settings of a session in an empty environment. -/
def default : Settings := ⟨"session.lisp", 1000, "* ", "WARNING"⟩

/-- The slashes that a path begins with after tidying: two if there are exactly
two, else at most one. -/
def rootOf (path : Text) : Text :=
  match (path.takeWhile (· = '/')).length with
  | 0 => []
  | 2 => ['/', '/']
  | _ => ['/']

/-- The steps of a path that lead somewhere. -/
def stepsOf (path : Text) : List Text :=
  (Text.splitOn '/' path).filter fun step => step ≠ [] ∧ step ≠ ['.']

/-- The shortest spelling of a path. -/
def tidyPath (path : Text) : Text :=
  match rootOf path ++ List.intercalate ['/'] (stepsOf path) with
  | [] => ['.']
  | tidy => tidy

def historyPathOf (raw : Option Text) : Text :=
  match raw.map Text.strip with
  | none | some [] => default.historyPath
  | some path => tidyPath path

def historyLengthOf (raw : Option Text) : Int :=
  (raw.bind Text.integer?).getD default.historyLength

def ofEnvironment (env : Environment) : Settings where
  historyPath := historyPathOf env.history
  historyLength := historyLengthOf env.historyLength
  prompt := env.prompt.getD default.prompt
  logLevel := Text.upper (env.logLevel.getD default.logLevel)

example : tidyPath "a//b/./c/" = ("a/b/c" : Text) := by decide

example : tidyPath "//x/../y" = ("//x/../y" : Text) := by decide

end Settings

end SpliceLisp
