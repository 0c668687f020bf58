/-
# The history file

The lines of a session are kept in a file, each followed by a newline. Reading
the file leaves out a carriage return at the end of a line, then whatever comes
after a null character, and then empty lines; a last line without a newline is
not read. A file that begins with `#` and a digit has time stamps, and every
line of that form is one.

Writing keeps the last lines up to a limit. An entry may hold newlines itself,
and the limit counts the lines that it takes up.

No entry can hold a null character, and the limit has to be an integer of 32
bits: anything else is refused.

Key definitions: `History.ofFile`, `History.toFile`, `History.takes`,
`History.permits`, `History.Problem`.
Key theorem: `History.completeLines_ofLines`.
-/
import SpliceLisp.Text.Decimal

namespace SpliceLisp

namespace History

/-- Why a file cannot be read or written: it or its directory is not there, a
directory was to be written or to be read as a file, or anything else. -/
inductive Problem where
  | missing
  | directory
  | notRegular
  | other (code : Nat) (wording : Text)
deriving DecidableEq, Repr

/-- The code and wording of a problem. -/
def Problem.message : Problem → Text
  | missing => "[Errno 2] No such file or directory"
  | directory => "[Errno 21] Is a directory"
  | notRegular => "[Errno 22] Invalid argument"
  | other code wording => "[Errno " ++ Text.decimal code ++ "] " ++ wording

/-- The lines of a file that end in a newline. -/
def completeLines (contents : Text) : List Text := (Text.splitOn '\n' contents).dropLast

/-- The line without a carriage return at its end. -/
def withoutReturn (line : Text) : Text :=
  if line.getLast? = some '\r' then line.dropLast else line

/-- The line up to its first null character. -/
def untilNull (line : Text) : Text := line.takeWhile (· ≠ '\x00')

/-- Whether the text begins with `#` and a digit. -/
def isStamp : Text → Bool
  | '#' :: c :: _ => c.isDigit
  | _ => false

/-- The entries that a file holds. -/
def ofFile (contents : Text) : List Text :=
  let lines := (completeLines contents).map fun line => untilNull (withoutReturn line)
  let entries := lines.filter fun line => !line.isEmpty
  if isStamp contents then entries.filter fun line => !isStamp line else entries

/-- The last items of a list, as many as the limit says; all if it is
negative. -/
def lastOf {α : Type} (limit : Int) (l : List α) : List α :=
  if limit < 0 then l else l.drop (l.length - limit.toNat)

/-- Whether the line can be an entry. -/
def takes (line : Text) : Bool := !line.contains '\x00'

/-- Whether the number of lines can be limited to this. -/
def permits (limit : Int) : Bool := -2147483648 ≤ limit ∧ limit ≤ 2147483647

theorem takes_iff {line : Text} : takes line = true ↔ '\x00' ∉ line := by
  simp [takes]

theorem permits_iff {limit : Int} :
    permits limit = true ↔ -2147483648 ≤ limit ∧ limit ≤ 2147483647 := decide_eq_true_iff

/-- The text of a file with one line after the other. -/
def ofLines (lines : List Text) : Text := lines.flatMap fun line => line ++ ['\n']

/-- The file that holds the entries, cut to its last lines. -/
def toFile (limit : Int) (entries : List Text) : Text :=
  ofLines (lastOf limit (completeLines (ofLines entries)))

/-- Lines that hold no newline come back from the file that holds them. -/
theorem completeLines_ofLines :
    ∀ lines : List Text, (∀ line ∈ lines, '\n' ∉ line) → completeLines (ofLines lines) = lines
  | [], _ => rfl
  | line :: lines, h => by
    have ih := completeLines_ofLines lines fun l hl => h l (List.mem_cons_of_mem _ hl)
    have hline := h line List.mem_cons_self
    have hne := Text.splitOn_ne_nil '\n' (ofLines lines)
    simp only [completeLines, ofLines] at ih hne
    simp [completeLines, ofLines, List.append_assoc, Text.splitOn_append_cons _ _ hline,
      List.dropLast_cons_of_ne_nil hne, ih]

end History

end SpliceLisp
