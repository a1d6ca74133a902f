/-
# Excerpts

The lines around a place in a source text, with their numbers. The line itself is
marked, and below it a caret stands under the column.

Key definitions: `excerpt`, `excerpt?`, `excerptLine`, `caretLine`.
-/
import Terrace.Text.Bytes

namespace Terrace

/-- The lines shown before and after the marked one. -/
def excerptReach : Nat := 2

/-- The text of a line without carriage returns at its end. -/
def withoutReturns (line : Bytes) : Bytes := Bytes.dropRightWhile (· == '\r'.toUInt8) line

/-- A line with its number, right-aligned to a width. -/
def excerptLine (width : Nat) (marked : Bool) (number : Nat) (line : Bytes) : Bytes :=
  let mark : Bytes := if marked then "> " else "  "
  mark ++ Bytes.padLeft width ' '.toUInt8 (Bytes.decimal number) ++ " | "
    ++ withoutReturns line ++ "\n"

/-- A caret under a column of the line above; under the first one for no column. -/
def caretLine (width : Nat) (column : Int) : Bytes :=
  List.replicate (2 + width + 3 + (column - 1).toNat) ' '.toUInt8 ++ "^\n"

/-- Whether a text has a line with a number, from 1; an empty text has none. -/
def hasLine (source : Bytes) (line : Int) : Bool :=
  !source.isEmpty && 0 < line && line ≤ (Bytes.splitOn '\n'.toUInt8 source).length

/-- The lines around line `line` of a text, from 1; empty if there is no such line. -/
def excerpt (source : Bytes) (line column : Int) : Bytes :=
  if !hasLine source line then []
  else
    let lines := Bytes.splitOn '\n'.toUInt8 source
    let marked := line.toNat
    let first := marked - 1 - excerptReach
    let last := min (marked + excerptReach) lines.length
    let width := (Bytes.decimal last).length
    let shown := ((lines.zipIdx 1).take last).drop first
    shown.flatMap fun (text, number) =>
      if number = marked then excerptLine width true number text ++ caretLine width column
      else excerptLine width false number text

/-- The farthest column a caret can be moved to: all of the address space. -/
def maxCaret : Int := Nat.pow 2 48

/-- The excerpt around a place that need not be one of a real text; none when the caret
cannot be drawn. -/
def excerpt? (source : Bytes) (line column : Int) : Option Bytes :=
  if hasLine source line && maxCaret < column - 1 then none
  else some (excerpt source line column)

end Terrace
