/-
# Reading instructions off any code

An instruction is read exactly where its own bytes stand: it is written back as them, what is left
is the code behind them, and any code that begins with them gives the same instruction. So an
instruction that a listing shows can be read at its place, whatever stands before and behind it.

Key theorems: `Operand.read?_eq_some`, `Operand.readAll?_eq_some`, `Instruction.read_eq_ok`,
`Instruction.read_of_mem`, `Instruction.head?_readAll`.
-/
import Mathlib.Tactic.Common
import Mathlib.Tactic.SplitIfs
import Terrace.Proofs.Code.Decoding

namespace Terrace

/-- An opcode is written as the byte it was read from. -/
theorem Opcode.byte_of_ofByte? {b : UInt8} {op : Opcode} (h : ofByte? b = some op) :
    op.byte = b := by
  have hnodup : all.Nodup := by decide
  have hplace : all[b.toNat]? = all[op.byte.toNat]? := by
    have hback := ofByte?_byte op
    simp only [ofByte?, table, List.getElem?_toArray] at h hback
    rw [h, hback]
  have hlt : b.toNat < all.length := by
    simp only [ofByte?, table, List.getElem?_toArray] at h
    exact (List.getElem?_eq_some_iff.mp h).1
  exact UInt8.toNat_inj.mp ((List.getElem?_inj hlt hnodup).mp hplace).symm

theorem Opcode.byte_injective : Function.Injective byte := by
  intro first second h
  have hback := congrArg ofByte? h
  simpa using hback

namespace Operand

variable {kind : OperandKind} {kinds : List OperandKind} {operand : Operand}
  {operands : List Operand} {code rest : Bytes}

/-- **An operand is read exactly where its bytes stand**, if it is of the kind asked for. -/
theorem read?_eq_some : read? kind code = some (operand, rest) ↔
    OfKind kind operand ∧ code = operand.encode ++ rest := by
  refine ⟨fun h => ?_, fun ⟨hkind, hcode⟩ => hcode ▸ read?_encode hkind rest⟩
  unfold read? at h
  split at h
  case h_1 => cases h; exact ⟨trivial, rfl⟩
  case h_2 => cases h; exact ⟨trivial, rfl⟩
  case h_3 low high code =>
    cases h
    exact ⟨trivial, by rw [encode, addressBytes_addressOfBytes]; rfl⟩
  case h_4 size code =>
    dsimp only at h
    split at h
    case isTrue hsize =>
      cases h
      have hlt := size.toNat_lt
      have hbyte : (code.take size.toNat).length.toUInt8 = size := by
        rw [hsize, Nat.toUInt8, UInt8.ofNat_toNat]
      refine ⟨?_, by rw [encode, hbyte, List.cons_append, List.take_append_drop]⟩
      rw [OfKind, hsize]
      omega
    case isFalse => cases h
  case h_5 => cases h

/-- What is left after an operand is the code behind its bytes. -/
theorem drop_read? (h : read? kind code = some (operand, rest)) :
    rest = code.drop operand.length := by
  rw [(read?_eq_some.mp h).2, ← length_encode, List.drop_left]

theorem readAll?_cons (h : readAll? (kind :: kinds) code = some (operands, rest)) :
    ∃ operand between others, read? kind code = some (operand, between) ∧
      readAll? kinds between = some (others, rest) ∧ operands = operand :: others := by
  simp only [readAll?, Option.bind_eq_bind, Option.bind_eq_some_iff, Prod.exists, Option.pure_def,
    Option.some.injEq, Prod.mk.injEq] at h
  obtain ⟨operand, between, hread, others, rest', hothers, rfl, rfl⟩ := h
  exact ⟨operand, between, others, hread, hothers, rfl⟩

/-- **Operands are read exactly where their bytes stand** one behind the other. -/
theorem readAll?_eq_some : readAll? kinds code = some (operands, rest) ↔
    List.Forall₂ OfKind kinds operands ∧ code = operands.flatMap encode ++ rest := by
  refine ⟨fun h => ?_, fun ⟨hkinds, hcode⟩ => hcode ▸ readAll?_encode hkinds rest⟩
  induction kinds generalizing code operands with
  | nil =>
    cases h
    exact ⟨.nil, rfl⟩
  | cons kind kinds ih =>
    obtain ⟨operand, between, others, hread, hothers, rfl⟩ := readAll?_cons h
    obtain ⟨hkind, hcode⟩ := read?_eq_some.mp hread
    obtain ⟨hkinds, hbetween⟩ := ih hothers
    exact ⟨.cons hkind hkinds, by rw [hcode, hbetween, List.flatMap_cons, List.append_assoc]⟩

end Operand

namespace Instruction

variable {instruction : Instruction} {code rest : Bytes} {offset : Nat}

/-- What is read off the front of a code: the opcode, then the operands it asks for. -/
theorem of_read {b : UInt8} (h : read offset (b :: code) = .ok (instruction, rest)) :
    Opcode.ofByte? b = some instruction.op ∧
      Operand.readAll? instruction.op.operands code = some (instruction.operands, rest) := by
  unfold read at h
  dsimp only at h
  split at h
  case h_1 => cases h
  case h_2 op hop =>
    split at h
    case h_1 => cases h
    case h_2 operands after hoperands =>
      cases h
      exact ⟨hop, hoperands⟩

/-- **An instruction is read exactly where its bytes stand**, at whatever offset. -/
theorem read_eq_ok : read offset code = .ok (instruction, rest) ↔
    instruction.WellFormed ∧ code = instruction.encode ++ rest := by
  refine ⟨fun h => ?_, fun ⟨hformed, hcode⟩ => hcode ▸ read_encode hformed offset rest⟩
  cases code with
  | nil => cases h
  | cons b code =>
    obtain ⟨hop, hoperands⟩ := of_read h
    obtain ⟨hkinds, hcode⟩ := Operand.readAll?_eq_some.mp hoperands
    exact ⟨hkinds, by rw [encode, Opcode.byte_of_ofByte? hop, hcode, List.cons_append]⟩

theorem wellFormed_of_read (h : read offset code = .ok (instruction, rest)) :
    instruction.WellFormed := (read_eq_ok.mp h).1

/-- An instruction is written back as the bytes it was read from. -/
theorem eq_encode_of_read (h : read offset code = .ok (instruction, rest)) :
    code = instruction.encode ++ rest := (read_eq_ok.mp h).2

/-- What is left after an instruction is the code behind its bytes. -/
theorem drop_read (h : read offset code = .ok (instruction, rest)) :
    rest = code.drop instruction.length := by
  rw [eq_encode_of_read h, ← length_encode, List.drop_left]

/-- What is read from the front of a code is read from any code that begins with it. -/
theorem read_append (h : read offset code = .ok (instruction, rest)) (more : Bytes) :
    read offset (code ++ more) = .ok (instruction, rest ++ more) := by
  obtain ⟨hformed, hcode⟩ := read_eq_ok.mp h
  exact read_eq_ok.mpr ⟨hformed, by rw [hcode, List.append_assoc]⟩

/-- Where an instruction stands shows in no result but an error. -/
theorem read_offset (h : read offset code = .ok (instruction, rest)) (offset' : Nat) :
    read offset' code = .ok (instruction, rest) :=
  read_eq_ok.mpr (read_eq_ok.mp h)

/-- An instruction of a listing can be read where it stands. -/
theorem read_of_mem : ∀ {fuel offset place : Nat} {code : Bytes},
    (place, instruction) ∈ (readFrom fuel offset code).1 →
    ∃ skipped rest, place = offset + skipped ∧
      read place (code.drop skipped) = .ok (instruction, rest)
  | 0, _, _, _, h => by simp [readFrom] at h
  | fuel + 1, offset, place, code, h => by
    unfold readFrom at h
    split_ifs at h with hempty
    · simp at h
    · split at h
      · simp at h
      next first rest hread =>
        rcases List.mem_cons.mp h with h | h
        · cases h
          exact ⟨0, rest, rfl, hread⟩
        · obtain ⟨skipped, after, hplace, hfound⟩ := read_of_mem h
          refine ⟨first.length + skipped, after, by omega, ?_⟩
          have hrest : code.drop (first.length + skipped) = rest.drop skipped := by
            rw [drop_read hread, List.drop_drop]
          rw [hrest, hfound]

/-- The instructions of a code begin with the one at its front. -/
theorem head?_readAll (h : read 0 code = .ok (instruction, rest)) :
    (readAll code).1.head? = some (0, instruction) := by
  cases code with
  | nil => cases h
  | cons b code =>
    unfold readAll
    rw [List.length_cons, readFrom, h]
    rfl

end Instruction

end Terrace
