/-
# Encoded instructions

Reading instructions off a byte string and writing them back. An instruction is
an opcode with the operands its opcode asks for; reading fails on a byte that is
no opcode and on operands that run past the end.

Key definitions: `Operand`, `Instruction`, `Instruction.read`, `Instruction.encode`,
`instructionLength`, `readAll`.
-/
import Terrace.Code.Opcode

namespace Terrace

/-- An operand as it stands in the code. -/
inductive Operand where
  | byte (value : UInt8)
  | distance (value : UInt8)
  | address (value : UInt16)
  | sized (bytes : Bytes)
deriving DecidableEq, Repr

/-- The little-endian bytes of a 16-bit address. -/
def addressBytes (value : UInt16) : Bytes := [value.toUInt8, (value >>> 8).toUInt8]

/-- The 16-bit address with these two bytes, low byte first. -/
def addressOfBytes (low high : UInt8) : UInt16 := low.toUInt16 ||| (high.toUInt16 <<< 8)

namespace Operand

/-- The number of bytes an operand takes. -/
def length : Operand → Nat
  | .byte _ | .distance _ => 1
  | .address _ => 2
  | .sized bytes => 1 + bytes.length

/-- The bytes of an operand. -/
def encode : Operand → Bytes
  | .byte value | .distance value => [value]
  | .address value => addressBytes value
  | .sized bytes => bytes.length.toUInt8 :: bytes

/-- The number a listing shows for an operand: a sized one shows its size. -/
def value : Operand → Nat
  | .byte value | .distance value => value.toNat
  | .address value => value.toNat
  | .sized bytes => bytes.length

/-- Reads an operand of a kind off the front of the code. -/
def read? : OperandKind → Bytes → Option (Operand × Bytes)
  | .byte, value :: rest => some (.byte value, rest)
  | .distance, value :: rest => some (.distance value, rest)
  | .address, low :: high :: rest => some (.address (addressOfBytes low high), rest)
  | .sized, size :: rest =>
    let bytes := rest.take size.toNat
    if bytes.length = size.toNat then some (.sized bytes, rest.drop size.toNat) else none
  | _, _ => none

/-- Reads operands one after the other. -/
def readAll? : List OperandKind → Bytes → Option (List Operand × Bytes)
  | [], code => some ([], code)
  | kind :: kinds, code => do
    let (operand, rest) ← read? kind code
    let (operands, rest) ← readAll? kinds rest
    return (operand :: operands, rest)

end Operand

/-- An opcode with its operands. -/
structure Instruction where
  op : Opcode
  operands : List Operand
deriving DecidableEq, Repr

/-- Why no instruction can be read at an offset of the code. -/
inductive DecodeError where
  | outside (offset : Int)
  | unknown (byte : UInt8) (offset : Nat)
  | truncated (op : Opcode) (offset : Nat)
deriving DecidableEq, Repr

/-- The message of a decoding error. -/
def DecodeError.message : DecodeError → Bytes
  | .outside offset => "instruction at " ++ Bytes.decimalInt offset ++ " is outside the code"
  | .unknown byte offset =>
    "unknown opcode " ++ Bytes.decimal byte.toNat ++ " at " ++ Bytes.decimal offset
  | .truncated op offset => "truncated " ++ op.name ++ " at " ++ Bytes.decimal offset

namespace Instruction

/-- The number of bytes an instruction takes, its opcode counted. -/
def length (instruction : Instruction) : Nat :=
  1 + instruction.operands.foldr (fun operand length => operand.length + length) 0

/-- The bytes of an instruction. -/
def encode (instruction : Instruction) : Bytes :=
  instruction.op.byte :: instruction.operands.flatMap Operand.encode

/-- Reads the instruction at the front of `code`, which stands at `offset`. -/
def read (offset : Nat) : Bytes → Except DecodeError (Instruction × Bytes)
  | [] => .error (.outside offset)
  | b :: rest =>
    match Opcode.ofByte? b with
    | none => .error (.unknown b offset)
    | some op =>
      match Operand.readAll? op.operands rest with
      | none => .error (.truncated op offset)
      | some (operands, rest) => .ok (⟨op, operands⟩, rest)

/-- Reads instructions until the code or the fuel is used up; an error ends the
list early. Each instruction comes with its offset. -/
def readFrom : Nat → Nat → Bytes → List (Nat × Instruction) × Option DecodeError
  | 0, _, _ => ([], none)
  | fuel + 1, offset, code =>
    if code.isEmpty then ([], none)
    else match read offset code with
      | .error e => ([], some e)
      | .ok (instruction, rest) =>
        let (found, failure) := readFrom fuel (offset + instruction.length) rest
        ((offset, instruction) :: found, failure)

/-- All instructions of a code with their offsets, up to the first error. Every
instruction takes a byte, so the length of the code is enough fuel. -/
def readAll (code : Bytes) : List (Nat × Instruction) × Option DecodeError :=
  readFrom code.length 0 code

end Instruction

/-- The length of the instruction at an offset of the code, its opcode counted. -/
def instructionLength (code : Bytes) (offset : Int) : Except DecodeError Nat :=
  if offset < 0 || (code.length : Int) ≤ offset then .error (.outside offset)
  else do
    let (instruction, _) ← Instruction.read offset.toNat (code.drop offset.toNat)
    return instruction.length

end Terrace
