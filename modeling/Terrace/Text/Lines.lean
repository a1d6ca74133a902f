/-
# Reading lines

A reader that takes one line at a time from its input. A line ends at a newline
or at the end of the input, a carriage return before that end is dropped, and a
line may not reach the size of the reader's buffer.

Key definitions: `NextLine`, `nextLine`, `readLines`.
-/
import Terrace.Text.Bytes

namespace Terrace.Text

/-- The size of the line buffer: a line is shorter than this, its carriage return counted. -/
def lineLimit : Nat := 65536

/-- What reading one line gives. -/
inductive NextLine where
  /-- A line, and the input after its newline. -/
  | line (text rest : Bytes)
  /-- The input is used up. -/
  | finished
  /-- The next line does not fit in the buffer. -/
  | tooLong
deriving DecidableEq, Repr

/-- The message of a line that does not fit. -/
def tooLongMessage : Bytes := "bufio.Scanner: token too long"

/-- A line without the carriage return at its end. -/
def dropReturn (line : Bytes) : Bytes :=
  if line.getLast? = some '\r'.toUInt8 then line.dropLast else line

/-- Reads one line. -/
def nextLine (input : Bytes) : NextLine :=
  match input with
  | [] => .finished
  | _ =>
    let (line, rest) := Bytes.splitAtFirst (· == '\n'.toUInt8) input
    if lineLimit ≤ line.length then .tooLong else .line (dropReturn line) (rest.drop 1)

/-- Reads up to `count` lines; none when one of them is too long. -/
def takeLines : Nat → Bytes → Option (List Bytes)
  | 0, _ => some []
  | count + 1, input =>
    match nextLine input with
    | .finished => some []
    | .tooLong => none
    | .line text rest => (takeLines count rest).map (text :: ·)

/-- All lines of a text; none when one of them is too long. Each line takes at
least one byte, so the length of the text bounds their number. -/
def readLines (text : Bytes) : Option (List Bytes) := takeLines text.length text

end Terrace.Text
