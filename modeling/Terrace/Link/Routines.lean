/-
# Routine libraries

The assembler source of a runtime: a header, then routines, each from the line with
its label up to the next one. A label stands at the start of a line and ends with a
colon. The header may name the address where the code is loaded.

Key definitions: `isLabelLine`, `Routine`, `RoutineLibrary`, `RoutineReader.step`,
`RoutineLibrary.ofLines`, `RoutineLibrary.parse`, `RoutineLibrary.origin?`.
-/
import Terrace.Text.Blank
import Terrace.Text.Lines
import Terrace.Text.Numeral

namespace Terrace

/-- Whether a line starts a routine: it is not indented, no comment, and has a colon. -/
def isLabelLine (line : Bytes) : Bool :=
  match line with
  | [] => false
  | first :: _ =>
    first != ' '.toUInt8 && first != '\t'.toUInt8 && first != ';'.toUInt8
      && line.contains ':'.toUInt8

/-- A labelled block of a runtime. -/
structure Routine where
  name : Bytes
  lines : List Bytes
deriving DecidableEq, Repr

/-- Whether a routine is a helper, which is always linked. -/
def Routine.isInternal (r : Routine) : Bool := r.name.startsWith "_"

/-- The name a label line gives. -/
def labelName (line : Bytes) : Bytes := line.takeWhile (· != ':'.toUInt8)

/-- A runtime in parts. -/
structure RoutineLibrary where
  header : List Bytes
  routines : List Routine
deriving DecidableEq, Repr

/-- A runtime as far as it is read, line by line. -/
structure RoutineReader where
  library : RoutineLibrary := ⟨[], []⟩
  /-- The place of the routine that takes the lines; in front of the first label none. -/
  current? : Option Nat := none
deriving DecidableEq, Repr

namespace RoutineReader

/-- Begins a routine, which takes the lines from here on. -/
def start (reader : RoutineReader) (name : Bytes) : RoutineReader where
  library := { reader.library with routines := reader.library.routines ++ [⟨name, []⟩] }
  current? := some reader.library.routines.length

/-- Adds a line to the routine that takes them, or to the header. -/
def put (reader : RoutineReader) (line : Bytes) : RoutineReader :=
  match reader.current? with
  | none => { reader with library.header := reader.library.header ++ [line] }
  | some place =>
    { reader with
      library.routines := reader.library.routines.modify place fun r =>
        { r with lines := r.lines ++ [line] } }

/-- Reads a line. -/
def step (reader : RoutineReader) (line : Bytes) : RoutineReader :=
  if isLabelLine line then (reader.start (labelName line)).put line else reader.put line

end RoutineReader

namespace RoutineLibrary

/-- The parts of a text given by its lines: those before the first label are the header. -/
def ofLines (lines : List Bytes) : RoutineLibrary := (lines.foldl RoutineReader.step {}).library

/-- The parts of a text; none when a line is too long. -/
def parse (text : Bytes) : Option RoutineLibrary := (Text.readLines text).map ofLines

/-- The message of a text that could not be read, for a reason. -/
def unreadableMessage (reason : Bytes) : Bytes := "failed to read routines: " ++ reason

/-- The argument of an origin line. -/
def originField? (line : Bytes) : Option Bytes :=
  match Text.fields line with
  | word :: field :: _ => if word == ".org" then some field else none
  | _ => none

/-- The address that the first origin line of the header names, in base sixteen behind
an optional dollar sign. -/
def origin? (library : RoutineLibrary) : Option UInt16 := do
  let field ← library.header.findSome? originField?
  let digits := if field.startsWith "$" then field.drop 1 else field
  let address ← (Text.Numeral.readDigits 16 0xffff digits).toOption
  return address.toUInt16

/-- The routine with a name. -/
def find? (library : RoutineLibrary) (name : Bytes) : Option Routine :=
  library.routines.find? (·.name == name)

end RoutineLibrary

end Terrace
