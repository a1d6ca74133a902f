/-
# Images

An assembled program: its bytes, the address of the first one, and the address
where execution begins.

Key definitions: `Image`, `Image.stop`, `Image.usage`, `Image.renumber`.
-/
import Terrace.Code.Instruction

namespace Terrace

/-- An assembled program. -/
structure Image where
  code : Bytes
  base : UInt16
  start : UInt16
deriving DecidableEq, Repr

/-- Why an image cannot be counted or renumbered. -/
inductive ImageError where
  | undecodable (cause : DecodeError)
  | unnumbered (op : Opcode) (address : Nat)
deriving DecidableEq, Repr

/-- The message of an image error. -/
def ImageError.message : ImageError → Bytes
  | .undecodable cause => "failed to decode image: " ++ cause.message
  | .unnumbered op address =>
    "opcode " ++ op.name ++ " at " ++ Bytes.address address ++ " has no routine index"

namespace Image

/-- The first address after the code. -/
def stop (image : Image) : Nat := image.base.toNat + image.code.length

/-- The instructions of an image with their offsets. -/
def instructions (image : Image) : Except ImageError (List (Nat × Instruction)) :=
  match Instruction.readAll image.code with
  | (_, some cause) => .error (.undecodable cause)
  | (found, none) => .ok found

/-- How often each opcode occurs in an image, in the order of opcodes; opcodes
that do not occur are left out. -/
def usage (image : Image) : Except ImageError (List (Opcode × Nat)) := do
  let ops := (← image.instructions).map fun found => found.2.op
  return Opcode.all.filterMap fun op =>
    if ops.contains op then some (op, ops.count op) else none

/-- The distinct opcodes of an image in the order of opcodes. -/
def usedOpcodes (image : Image) : Except ImageError (List Opcode) := do
  return (← image.usage).map Prod.fst

/-- The place of an opcode byte in a numbering; of several places the last counts. -/
def routineIndex (numbering : List UInt8) (byte : UInt8) : Option UInt8 :=
  match numbering.reverse.idxOf? byte with
  | some i => some (numbering.length - 1 - i).toUInt8
  | none => none

/-- Replaces the opcode of each instruction, read at `offset` from `code`, by its
place in `numbering`. -/
def renumberFrom (base : Nat) (numbering : List UInt8) : Nat → Nat → Bytes → Except ImageError Bytes
  | 0, _, _ => .ok []
  | fuel + 1, offset, code =>
    if code.isEmpty then .ok []
    else match Instruction.read offset code with
      | .error cause => .error (.undecodable cause)
      | .ok (instruction, rest) =>
        match routineIndex numbering instruction.op.byte with
        | none => .error (.unnumbered instruction.op (base + offset))
        | some i => do
          let size := instruction.length
          let tail ← renumberFrom base numbering fuel (offset + size) rest
          return i :: ((code.take size).drop 1 ++ tail)

/-- The image whose opcode bytes are replaced by their place in `numbering`;
operands stay as they are. -/
def renumber (image : Image) (numbering : List UInt8) : Except ImageError Image := do
  let code ← renumberFrom image.base.toNat numbering image.code.length 0 image.code
  return { image with code }

end Image

end Terrace
