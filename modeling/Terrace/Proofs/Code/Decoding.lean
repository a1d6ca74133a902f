/-
# Reading instructions back

Writing an instruction and reading it off the front of the bytes gives it back,
with the bytes after it untouched, provided its operands are of the kinds its
opcode asks for and its literal has at most 255 bytes (`Instruction.WellFormed`).
A whole sequence of such instructions is therefore read back as it was, each at
the offset where the one before it ends (`Instruction.readAll_encodeAll`).

Key definitions: `Operand.OfKind`, `Instruction.WellFormed`, `Instruction.encodeAll`,
`Instruction.offsets`.
Key theorems: `Instruction.read_encode`, `Instruction.readAll_encodeAll`.
-/
import Mathlib.Tactic.Common
import Terrace.Code.Listing

namespace Terrace

/-- An opcode is read back from its byte. -/
@[simp] theorem Opcode.ofByte?_byte (op : Opcode) : Opcode.ofByte? op.byte = some op := by
  cases op
  case compare c => cases c <;> rfl
  case compareByte c => cases c <;> rfl
  case arithmetic a => cases a <;> rfl
  case arithmeticByte a => cases a <;> rfl
  case bitwise b => cases b <;> rfl
  case shift d => cases d <;> rfl
  case load s => cases s <;> rfl
  case assign s => cases s <;> rfl
  case loadOne s => cases s <;> rfl
  case assignOne s => cases s <;> rfl
  case addressOf s => cases s <;> rfl
  all_goals rfl

/-- Two bytes as a number, low byte first. -/
theorem toNat_addressOfBytes (low high : UInt8) :
    (addressOfBytes low high).toNat = low.toNat + 256 * high.toNat := by
  have hlow : low.toNat < 2 ^ 8 := low.toNat_lt
  have hhigh : high.toNat < 2 ^ 8 := high.toNat_lt
  have hshift : high.toNat <<< 8 % 2 ^ 16 = 2 ^ 8 * high.toNat := by
    rw [Nat.shiftLeft_eq]
    omega
  simp only [addressOfBytes, UInt16.toNat_or, UInt8.toNat_toUInt16, UInt16.toNat_shiftLeft]
  rw [show UInt16.toNat 8 % 16 = 8 from rfl, Nat.or_comm, hshift,
    ← Nat.two_pow_add_eq_or_of_lt hlow]
  omega

/-- An address is read back from its two bytes. -/
@[simp] theorem addressOfBytes_addressBytes (a : UInt16) :
    addressOfBytes a.toUInt8 (a >>> 8).toUInt8 = a := by
  apply UInt16.toNat_inj.mp
  rw [toNat_addressOfBytes]
  have ha : a.toNat < 65536 := a.toNat_lt
  simp only [UInt16.toNat_toUInt8, UInt16.toNat_shiftRight, Nat.shiftRight_eq_div_pow]
  rw [show UInt16.toNat 8 % 16 = 8 from rfl]
  omega

/-- An address is written back as the two bytes it was read from. -/
theorem addressBytes_addressOfBytes (low high : UInt8) :
    addressBytes (addressOfBytes low high) = [low, high] := by
  have hlow := low.toNat_lt
  have hhigh := high.toNat_lt
  have hword := toNat_addressOfBytes low high
  rw [addressBytes]
  congr 1
  · apply UInt8.toNat_inj.mp
    rw [UInt16.toNat_toUInt8, hword]
    omega
  · congr 1
    apply UInt8.toNat_inj.mp
    simp only [UInt16.toNat_toUInt8, UInt16.toNat_shiftRight, Nat.shiftRight_eq_div_pow, hword]
    rw [show UInt16.toNat 8 % 16 = 8 from rfl]
    omega

namespace Operand

/-- The operand is of a kind, and a literal is short enough for its size byte. -/
def OfKind : OperandKind → Operand → Prop
  | .byte, .byte _ => True
  | .distance, .distance _ => True
  | .address, .address _ => True
  | .sized, .sized bytes => bytes.length ≤ 255
  | _, _ => False

theorem length_encode (operand : Operand) : operand.encode.length = operand.length := by
  cases operand <;> simp [encode, length, addressBytes, Nat.add_comm]

theorem read?_encode {kind : OperandKind} {operand : Operand} (h : OfKind kind operand)
    (rest : Bytes) : read? kind (operand.encode ++ rest) = some (operand, rest) := by
  cases kind <;> cases operand <;> simp only [OfKind] at h
  case byte.byte => rfl
  case distance.distance => rfl
  case address.address a => simp [encode, addressBytes, read?]
  case sized.sized bytes =>
    have hsize : bytes.length.toUInt8.toNat = bytes.length := by
      simp only [Nat.toUInt8, UInt8.toNat_ofNat']
      omega
    simp [encode, read?, hsize]

theorem readAll?_encode : ∀ {kinds : List OperandKind} {operands : List Operand},
    List.Forall₂ OfKind kinds operands → ∀ rest : Bytes,
      readAll? kinds (operands.flatMap encode ++ rest) = some (operands, rest)
  | _, _, .nil, _ => rfl
  | kind :: kinds, operand :: operands, .cons h hs, rest => by
    rw [List.flatMap_cons, List.append_assoc, readAll?, read?_encode h]
    simp [readAll?_encode hs]

end Operand

namespace Instruction

/-- The operands are those the opcode asks for. -/
def WellFormed (instruction : Instruction) : Prop :=
  List.Forall₂ Operand.OfKind instruction.op.operands instruction.operands

theorem length_encode (instruction : Instruction) :
    instruction.encode.length = instruction.length := by
  have h : ∀ operands : List Operand, (operands.flatMap Operand.encode).length =
      operands.foldr (fun operand length => operand.length + length) 0 := by
    intro operands
    induction operands with
    | nil => rfl
    | cons operand operands ih => simp [Operand.length_encode, ih]
  simp [encode, length, h, Nat.add_comm]

theorem length_pos (instruction : Instruction) : 0 < instruction.length := by
  simp only [length]
  omega

theorem encode_ne_nil (instruction : Instruction) : instruction.encode ≠ [] := by
  simp [encode]

/-- **An instruction is read back** from the front of any bytes that begin with it. -/
theorem read_encode {instruction : Instruction} (h : instruction.WellFormed) (offset : Nat)
    (rest : Bytes) : read offset (instruction.encode ++ rest) = .ok (instruction, rest) := by
  simp [encode, read, Operand.readAll?_encode h]

/-- The bytes of instructions one after the other. -/
def encodeAll (instructions : List Instruction) : Bytes := instructions.flatMap encode

/-- The offsets of instructions one after the other, the first at `offset`. -/
def offsets (offset : Nat) : List Instruction → List Nat
  | [] => []
  | instruction :: rest => offset :: offsets (offset + instruction.length) rest

theorem length_offsets : ∀ (offset : Nat) (instructions : List Instruction),
    (offsets offset instructions).length = instructions.length
  | _, [] => rfl
  | _, _ :: rest => by simp [offsets, length_offsets _ rest]

theorem length_le_length_encodeAll : ∀ instructions : List Instruction,
    instructions.length ≤ (encodeAll instructions).length
  | [] => by simp
  | instruction :: rest => by
    have ih := length_le_length_encodeAll rest
    have hpos := instruction.length_pos
    simp only [encodeAll, List.flatMap_cons, List.length_append, List.length_cons,
      length_encode] at ih ⊢
    omega

theorem readFrom_encodeAll : ∀ {instructions : List Instruction},
    (∀ instruction ∈ instructions, instruction.WellFormed) → ∀ {fuel : Nat},
      instructions.length ≤ fuel → ∀ offset : Nat,
      readFrom fuel offset (encodeAll instructions) =
        ((offsets offset instructions).zip instructions, none)
  | [], _, fuel, _, offset => by cases fuel <;> rfl
  | instruction :: rest, h, 0, hf, _ => by simp at hf
  | instruction :: rest, h, fuel + 1, hf, offset => by
    have hne : (encodeAll (instruction :: rest)).isEmpty = false := by
      simp [encodeAll, encode_ne_nil]
    have hread : read offset (encodeAll (instruction :: rest)) =
        .ok (instruction, encodeAll rest) :=
      read_encode (h instruction (by simp)) offset _
    have ih := readFrom_encodeAll (fun i hi => h i (by simp [hi])) (Nat.le_of_succ_le_succ hf)
      (offset + instruction.length)
    rw [readFrom, if_neg (by simp [hne]), hread]
    simp only [ih, offsets, List.zip_cons_cons]

/-- **Instructions are read back in order**, each where the one before it ends. -/
theorem readAll_encodeAll {instructions : List Instruction}
    (h : ∀ instruction ∈ instructions, instruction.WellFormed) :
    readAll (encodeAll instructions) = ((offsets 0 instructions).zip instructions, none) :=
  readFrom_encodeAll h (length_le_length_encodeAll instructions) 0

end Instruction

end Terrace
