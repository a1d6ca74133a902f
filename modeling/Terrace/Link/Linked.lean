/-
# Linked programs

The assembler source of a program together with the routines it needs. The opcodes
in use are numbered from zero; the program bytes carry these numbers, and two tables
give the addresses of the routines in the same order. Packaged files are listed at
the end.

Key definitions: `LinkError`, `byteRows`, `linkedLines`, `link`.
-/
import Terrace.Code.Image
import Terrace.Link.Manifest
import Terrace.Link.Routines

namespace Terrace

/-- Why a program cannot be linked. -/
inductive LinkError where
  | image (error : ImageError)
  | noRoutine (op : Opcode)
  | startOutside (start : UInt16)
deriving DecidableEq, Repr

/-- The message of a link error. -/
def LinkError.message : LinkError → Bytes
  | .image error => error.message
  | .noRoutine op => "routine library has no routine for " ++ op.name
  | .startOutside start =>
    "start address " ++ Bytes.address start.toNat ++ " is outside the program"

/-- The number of program bytes in a row. -/
def bytesPerRow : Nat := 24

/-- A row of program bytes. -/
def byteRow (bytes : Bytes) : Bytes :=
  ".byte " ++ List.intercalate ", " (bytes.map fun b => Bytes.decimal b.toNat)

/-- The rows of program bytes, at most `fuel` of them. -/
def byteRowsWithin : Nat → Bytes → List Bytes
  | 0, _ => []
  | fuel + 1, code =>
    if code.isEmpty then []
    else byteRow (code.take bytesPerRow) :: byteRowsWithin fuel (code.drop bytesPerRow)

/-- The rows of program bytes. -/
def byteRows (code : Bytes) : List Bytes := byteRowsWithin code.length code

/-- A number in base sixteen behind a dollar sign. -/
def dollarHex (width n : Nat) : Bytes := "$" ++ Bytes.hexPadded width n

/-- The lines of the program, cut at its start. -/
def programLines (image : Image) (split : Nat) : List Bytes :=
  List.flatten [
    ["program:"], byteRows (image.code.take split),
    ["; address = " ++ dollarHex 1 image.start.toNat, "program_start:"],
    byteRows (image.code.drop split), [[]]]

/-- The routines a program needs: the helpers and those of its opcodes. -/
def neededRoutines (library : RoutineLibrary) (used : List Opcode) : List Routine :=
  library.routines.filter fun r => r.isInternal || used.any (·.name == r.name)

/-- The tables of routine addresses, low bytes and high bytes apart. -/
def tableLines (used : List Opcode) : List Bytes :=
  let rows (part : Bytes) : List Bytes :=
    used.map fun op => ".byte " ++ part ++ "[" ++ op.name ++ " - 1]"
  List.flatten [
    [[], "lookup_low:"], rows "<", [[], "lookup_high:"], rows ">", [[], "_stack:"]]

/-- The line of a packaged file. -/
def fileLine (name : Bytes) (load exec : Nat) : Bytes :=
  "; " ++ name ++ " load " ++ dollarHex 4 load ++ " exec " ++ dollarHex 4 exec

/-- The list of packaged files, the program itself first. -/
def fileLines (image : Image) (files : List ManifestEntry) : List Bytes :=
  if files.isEmpty then []
  else [] :: "; files" :: fileLine "CODE" image.base.toNat image.stop ::
    files.map fun f => fileLine f.object f.load.toNat f.exec.toNat

/-- The place in the code where the program starts; it may be the end. -/
def Image.split? (image : Image) : Option Nat :=
  if image.base ≤ image.start && image.start.toNat ≤ image.stop then
    some (image.start.toNat - image.base.toNat)
  else none

/-- The lines of a linked program. -/
def linkedLines (library : RoutineLibrary) (image : Image) (files : List ManifestEntry) :
    Except LinkError (List Bytes) := do
  let used ← image.usedOpcodes.mapError .image
  match used.find? fun op => (library.find? op.name).isNone with
  | some op => throw (.noRoutine op)
  | none => pure ()
  let program ← (image.renumber (used.map (·.byte))).mapError .image
  match program.split? with
  | none => throw (.startOutside program.start)
  | some split =>
    return library.header ++ programLines program split
      ++ (neededRoutines library used).flatMap (·.lines)
      ++ tableLines used ++ fileLines image files

/-- The assembler source of a linked program. -/
def link (library : RoutineLibrary) (image : Image) (files : List ManifestEntry) :
    Except LinkError Bytes := do
  return (← linkedLines library image files).flatMap (· ++ "\n")

end Terrace
