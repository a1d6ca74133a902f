/-
# A listing covers its code

The lines of a listing lie one behind the other, the first at the base address, and each of them,
written out from its opcode, the numbers of its operands and its literal as the operand table says,
is the bytes it was read from. Decoding ends at the end of the code, or it fails: then the code goes
on behind the last line with a byte that is no opcode, or with the beginning of an instruction that
the code is too short for.

The same listing comes out of a walk that asks for bytes by their index, measuring each instruction
before it fetches the operands (`Indexed.walk`). It answers `none` as soon as a byte outside the code
is asked for, which never happens.

Key definitions: `Line.encode`, `Ending`, `Partition`, `Indexed.walk`.
Key theorems: `Instruction.readFrom_partition`, `Indexed.walk_eq`, `disassemble_partition`.
-/
import Mathlib.Data.List.Forall2
import Terrace.Code.Listing
import Terrace.Proofs.Code.Reading

namespace Terrace

/-! ### Lines written out again -/

/-- The bytes of an operand of a kind, from the number a line shows for it and the literal of the
line. -/
def OperandKind.encode (literal : Bytes) : OperandKind → Nat → Bytes
  | .byte, value | .distance, value => [value.toUInt8]
  | .address, value => addressBytes value.toUInt16
  | .sized, value => value.toUInt8 :: literal

/-- The bytes of a line, from its opcode, the numbers of its operands and its literal. -/
def Line.encode (line : Line) : Bytes :=
  line.instruction.op.byte ::
    (List.zipWith (OperandKind.encode line.literal) line.instruction.op.operands
      line.operands).flatten

/-- A sized operand stands alone. -/
theorem Opcode.operands_of_sized {op : Opcode} (h : .sized ∈ op.operands) :
    op.operands = [.sized] := by
  cases op <;> simp [operands] at h ⊢

theorem Operand.OfKind.encode {kind : OperandKind} {operand : Operand}
    (h : operand.OfKind kind) (hkind : kind ≠ .sized) (literal : Bytes) :
    kind.encode literal operand.value = operand.encode := by
  cases kind <;> cases operand <;> simp only [Operand.OfKind] at h
  case byte.byte value => simp [OperandKind.encode, Operand.value, Operand.encode]
  case distance.distance value => simp [OperandKind.encode, Operand.value, Operand.encode]
  case address.address value => simp [OperandKind.encode, Operand.value, Operand.encode]
  case sized.sized => exact absurd rfl hkind

theorem Operand.encode_values {kinds : List OperandKind} {operands : List Operand}
    (h : List.Forall₂ OfKind kinds operands) (hkinds : .sized ∉ kinds) (literal : Bytes) :
    (List.zipWith (OperandKind.encode literal) kinds (operands.map value)).flatten =
      operands.flatMap encode := by
  induction h with
  | nil => rfl
  | cons hkind _ ih =>
    rw [List.mem_cons, not_or] at hkinds
    rw [List.map_cons, List.zipWith_cons_cons, List.flatten_cons, List.flatMap_cons,
      hkind.encode (Ne.symm hkinds.1), ih hkinds.2]

/-- **A line is written out as its instruction.** -/
theorem Line.encode_eq {line : Line} (h : line.instruction.WellFormed) :
    line.encode = line.instruction.encode := by
  obtain ⟨position, op, operands⟩ := line
  have hkinds : List.Forall₂ Operand.OfKind op.operands operands := h
  show op.byte :: _ = op.byte :: _
  congr 1
  by_cases hsized : .sized ∈ op.operands
  · rw [Opcode.operands_of_sized hsized] at hkinds
    rcases hkinds with _ | ⟨hkind, _ | _⟩
    rename_i operand
    cases operand <;> simp only [Operand.OfKind] at hkind
    case sized bytes =>
      show (List.zipWith _ op.operands _).flatten = _
      rw [Opcode.operands_of_sized hsized]
      simp [Line.operands, Line.literal, OperandKind.encode, Operand.value, Operand.encode]
  · exact Operand.encode_values hkinds hsized _

/-! ### Where decoding ends -/

namespace Operand

variable {kind : OperandKind} {kinds : List OperandKind} {operand : Operand}
  {operands : List Operand} {code rest : Bytes}

/-- A code too short for an operand begins an operand of that kind. -/
theorem exists_of_read?_none (h : read? kind code = none) :
    ∃ operand more, OfKind kind operand ∧ more ≠ [] ∧ encode operand = code ++ more := by
  cases kind with
  | byte =>
    cases code with
    | nil => exact ⟨.byte 0, [0], trivial, by simp, rfl⟩
    | cons value rest => simp [read?] at h
  | distance =>
    cases code with
    | nil => exact ⟨.distance 0, [0], trivial, by simp, rfl⟩
    | cons value rest => simp [read?] at h
  | address =>
    rcases code with _ | ⟨low, _ | ⟨high, rest⟩⟩
    · exact ⟨.address 0, [0, 0], trivial, by simp, rfl⟩
    · refine ⟨.address (addressOfBytes low 0), [0], trivial, by simp, ?_⟩
      rw [encode, addressBytes_addressOfBytes]
      rfl
    · simp [read?] at h
  | sized =>
    cases code with
    | nil => exact ⟨.sized [], [0], Nat.zero_le _, by simp, rfl⟩
    | cons size rest =>
      have hshort : rest.length < size.toNat := by
        simp only [read?, List.length_take] at h
        split at h
        · simp at h
        · omega
      have hlength : (rest ++ List.replicate (size.toNat - rest.length) 0).length = size.toNat := by
        rw [List.length_append, List.length_replicate]
        omega
      have hlt := size.toNat_lt
      refine ⟨.sized (rest ++ List.replicate (size.toNat - rest.length) 0),
        List.replicate (size.toNat - rest.length) 0, ?_, ?_, ?_⟩
      · rw [OfKind, hlength]
        omega
      · rw [ne_eq, List.replicate_eq_nil_iff]
        omega
      · rw [encode, hlength, Nat.toUInt8, UInt8.ofNat_toNat, List.cons_append]

/-- An operand of a kind, all of its bytes zero. -/
def zero : OperandKind → Operand
  | .byte => .byte 0
  | .distance => .distance 0
  | .address => .address 0
  | .sized => .sized []

theorem ofKind_zero : ∀ kinds : List OperandKind, List.Forall₂ OfKind kinds (kinds.map zero)
  | [] => .nil
  | kind :: kinds => .cons (by cases kind <;> simp [zero, OfKind]) (ofKind_zero kinds)

/-- A code too short for operands begins operands of these kinds. -/
theorem exists_of_readAll?_none : ∀ {kinds : List OperandKind} {code : Bytes},
    readAll? kinds code = none → ∃ operands more, List.Forall₂ OfKind kinds operands ∧
      more ≠ [] ∧ operands.flatMap encode = code ++ more
  | [], code, h => by simp [readAll?] at h
  | kind :: kinds, code, h => by
    cases hfirst : read? kind code with
    | none =>
      obtain ⟨operand, more, hkind, hmore, hcode⟩ := exists_of_read?_none hfirst
      refine ⟨operand :: kinds.map zero, more ++ (kinds.map zero).flatMap encode,
        .cons hkind (ofKind_zero kinds), by simp [hmore], ?_⟩
      rw [List.flatMap_cons, hcode, List.append_assoc]
    | some found =>
      obtain ⟨operand, between⟩ := found
      have hothers : readAll? kinds between = none := by
        rw [readAll?, hfirst] at h
        cases hothers : readAll? kinds between with
        | none => rfl
        | some answer => simp [hothers] at h
      obtain ⟨operands, more, hkinds, hmore, hcode⟩ := exists_of_readAll?_none hothers
      obtain ⟨hkind, hwhole⟩ := read?_eq_some.mp hfirst
      refine ⟨operand :: operands, more, .cons hkind hkinds, hmore, ?_⟩
      rw [List.flatMap_cons, hcode, ← List.append_assoc, ← hwhole]

end Operand

/-- How decoding ends at an offset with this code left over. -/
inductive Ending (offset : Nat) : Bytes → Option DecodeError → Prop
  /-- No code is left. -/
  | complete : Ending offset [] none
  /-- The next byte is no opcode. -/
  | unknown {b : UInt8} {rest : Bytes} (hop : Opcode.ofByte? b = none) :
    Ending offset (b :: rest) (some (.unknown b offset))
  /-- The code that is left is the beginning of an instruction, but not all of it. -/
  | truncated {b : UInt8} {rest more : Bytes} {instruction : Instruction}
    (hformed : instruction.WellFormed) (hmore : more ≠ [])
    (hcode : instruction.encode = b :: rest ++ more) :
    Ending offset (b :: rest) (some (.truncated instruction.op offset))

/-- Decoding succeeds if and only if nothing is left over. -/
theorem Ending.complete_iff {offset : Nat} {rest : Bytes} {failure : Option DecodeError}
    (h : Ending offset rest failure) : failure = none ↔ rest = [] := by
  cases h <;> simp

namespace Instruction

variable {instruction : Instruction} {code rest : Bytes}

theorem ending_of_read {offset : Nat} {cause : DecodeError} (hcode : code ≠ [])
    (h : read offset code = .error cause) : Ending offset code (some cause) := by
  unfold read at h
  split at h
  case h_1 => exact absurd rfl hcode
  case h_2 b code =>
    split at h
    case h_1 hop =>
      cases h
      exact .unknown hop
    case h_2 op hop =>
      split at h
      case h_1 hoperands =>
        cases h
        obtain ⟨operands, more, hkinds, hmore, hencode⟩ := Operand.exists_of_readAll?_none hoperands
        have hformed : (⟨op, operands⟩ : Instruction).WellFormed := hkinds
        refine .truncated hformed hmore ?_
        rw [encode, hencode, Opcode.byte_of_ofByte? hop]
        rfl
      case h_2 => cases h

/-- **Decoding splits a code** into the instructions it finds and what is left over. -/
theorem readFrom_partition : ∀ {fuel : Nat} (offset : Nat) {code : Bytes}, code.length ≤ fuel →
    ∃ instructions rest, (∀ instruction ∈ instructions, instruction.WellFormed) ∧
      code = encodeAll instructions ++ rest ∧
      (readFrom fuel offset code).1 = (offsets offset instructions).zip instructions ∧
      Ending (offset + (encodeAll instructions).length) rest (readFrom fuel offset code).2
  | 0, offset, code, hfuel => by
    rw [List.eq_nil_of_length_eq_zero (Nat.le_zero.mp hfuel)]
    exact ⟨[], [], by simp, rfl, rfl, .complete⟩
  | fuel + 1, offset, [], _ => ⟨[], [], by simp, rfl, rfl, .complete⟩
  | fuel + 1, offset, b :: code, hfuel => by
    cases hread : read offset (b :: code) with
    | error cause =>
      have hfound : readFrom (fuel + 1) offset (b :: code) = ([], some cause) := by
        simp [readFrom, hread]
      rw [hfound]
      exact ⟨[], b :: code, by simp, rfl, rfl, ending_of_read (by simp) hread⟩
    | ok answer =>
      obtain ⟨first, left⟩ := answer
      have hcode := eq_encode_of_read hread
      have hlength := congrArg List.length hcode
      rw [List.length_append, length_encode] at hlength
      have hpos := first.length_pos
      obtain ⟨instructions, rest, hformed, hleft, hfound, hending⟩ :=
        readFrom_partition (offset + first.length) (show left.length ≤ fuel by omega)
      have hall : readFrom (fuel + 1) offset (b :: code) =
          ((offset, first) :: (readFrom fuel (offset + first.length) left).1,
            (readFrom fuel (offset + first.length) left).2) := by
        simp [readFrom, hread]
      refine ⟨first :: instructions, rest, ?_, ?_, ?_, ?_⟩
      · exact List.forall_mem_cons.mpr ⟨wellFormed_of_read hread, hformed⟩
      · rw [hcode, hleft, encodeAll, encodeAll, List.flatMap_cons, List.append_assoc]
      · rw [hall, hfound, offsets, List.zip_cons_cons]
      · rw [hall, encodeAll, List.flatMap_cons, List.length_append, length_encode, ← Nat.add_assoc]
        exact hending

end Instruction

/-! ### The lines of a listing -/

/-- The lines lie one behind the other, the first at a position. -/
def Line.Consecutive (position : Nat) : List Line → Prop
  | [] => True
  | line :: rest => line.position = position ∧ Consecutive (position + line.encode.length) rest

/-- What a listing of a code at a base address covers, and how it ends. -/
structure Partition (code : Bytes) (base : UInt16) (lines : List Line)
    (failure : Option DecodeError) : Prop where
  /-- A line begins where the one before it ends. -/
  consecutive : Line.Consecutive base.toNat lines
  /-- The operands of a line are those its opcode asks for. -/
  wellFormed : ∀ line ∈ lines, line.instruction.WellFormed
  /-- The listing is complete if and only if the lines give the whole code. -/
  complete : failure = none ↔ lines.flatMap Line.encode = code
  /-- What the lines leave over is no instruction. -/
  ending : ∃ rest, code = lines.flatMap Line.encode ++ rest ∧
    Ending (lines.flatMap Line.encode).length rest failure

/-- The lines of instructions one behind the other. -/
def linesFrom (base offset : Nat) (instructions : List Instruction) : List Line :=
  ((Instruction.offsets offset instructions).zip instructions).map fun entry =>
    ⟨base + entry.1, entry.2⟩

section
variable (base offset : Nat) {instructions : List Instruction}

theorem linesFrom_cons (instruction : Instruction) :
    linesFrom base offset (instruction :: instructions) =
      ⟨base + offset, instruction⟩ ::
        linesFrom base (offset + instruction.length) instructions := rfl

theorem consecutive_linesFrom (h : ∀ instruction ∈ instructions, instruction.WellFormed) :
    Line.Consecutive (base + offset) (linesFrom base offset instructions) := by
  induction instructions generalizing offset with
  | nil => trivial
  | cons instruction instructions ih =>
    rw [linesFrom_cons, Line.Consecutive, Line.encode_eq (h instruction (by simp)),
      Instruction.length_encode, Nat.add_assoc]
    exact ⟨rfl, ih _ fun i hi => h i (by simp [hi])⟩

theorem wellFormed_linesFrom (h : ∀ instruction ∈ instructions, instruction.WellFormed) :
    ∀ line ∈ linesFrom base offset instructions, line.instruction.WellFormed := by
  intro line hline
  obtain ⟨entry, hentry, rfl⟩ := List.mem_map.mp hline
  exact h _ (List.of_mem_zip hentry).2

theorem encode_linesFrom (h : ∀ instruction ∈ instructions, instruction.WellFormed) :
    (linesFrom base offset instructions).flatMap Line.encode =
      Instruction.encodeAll instructions := by
  induction instructions generalizing offset with
  | nil => rfl
  | cons instruction instructions ih =>
    rw [linesFrom_cons, List.flatMap_cons, Line.encode_eq (h instruction (by simp)),
      ih _ fun i hi => h i (by simp [hi])]
    rfl

end

theorem partition_disassemble (code : Bytes) (base : UInt16) :
    Partition code base (disassemble code base).1 (disassemble code base).2 := by
  obtain ⟨instructions, rest, hformed, hcode, hfound, hending⟩ :=
    Instruction.readFrom_partition 0 (Nat.le_refl code.length)
  have hlines : (disassemble code base).1 = linesFrom base.toNat 0 instructions := by
    simp only [disassemble, Instruction.readAll, hfound]
    rfl
  have hfailure : (disassemble code base).2 = (Instruction.readFrom code.length 0 code).2 := rfl
  have hencode := encode_linesFrom base.toNat 0 hformed
  rw [hlines, hfailure]
  rw [Nat.zero_add] at hending
  refine ⟨consecutive_linesFrom _ 0 hformed, wellFormed_linesFrom _ 0 hformed, ?_, rest, ?_, ?_⟩
  · rw [hending.complete_iff, hencode, hcode, List.self_eq_append_right]
  · rw [hencode, hcode]
  · rw [hencode]
    exact hending

/-! ### Asking for bytes by index -/

namespace Indexed

/-- Measures operands, the first of them `n` bytes behind `start`: the length of the instruction
that begins there. The inner result is none if it runs past the end. -/
@[simp] def measure (code : Bytes) (start : Nat) : List OperandKind → Nat → Option (Option Nat)
  | [], n => some (if code.length < start + n then none else some n)
  | .byte :: kinds, n | .distance :: kinds, n => measure code start kinds (n + 1)
  | .address :: kinds, n => measure code start kinds (n + 2)
  | .sized :: kinds, n =>
    if code.length ≤ start + n then some none
    else do
      let size ← code[start + n]?
      measure code start kinds (n + 1 + size.toNat)

/-- The length of the instruction that begins at an index. -/
def length (code : Bytes) (start : Nat) : Option (Except DecodeError Nat) :=
  if code.length ≤ start then some (.error (.outside start))
  else do
    let b ← code[start]?
    match Opcode.ofByte? b with
    | none => return .error (.unknown b start)
    | some op =>
      match ← measure code start op.operands 1 with
      | none => return .error (.truncated op start)
      | some n => return .ok n

/-- Some bytes of the code, if all of them lie inside it. -/
def slice (code : Bytes) (start size : Nat) : Option Bytes :=
  if start + size ≤ code.length then some ((code.drop start).take size) else none

/-- Fetches operands one behind the other. -/
@[simp] def fetch (code : Bytes) : List OperandKind → Nat → Option (List Operand)
  | [], _ => some []
  | .byte :: kinds, start => do
    let value ← code[start]?
    return .byte value :: (← fetch code kinds (start + 1))
  | .distance :: kinds, start => do
    let value ← code[start]?
    return .distance value :: (← fetch code kinds (start + 1))
  | .address :: kinds, start => do
    let low ← code[start]?
    let high ← code[start + 1]?
    return .address (addressOfBytes low high) :: (← fetch code kinds (start + 2))
  | .sized :: kinds, start => do
    let size ← code[start]?
    let bytes ← slice code (start + 1) size.toNat
    return .sized bytes :: (← fetch code kinds (start + 1 + size.toNat))

/-- The lines of a code from an index on, and the error that ends them. -/
def walk (code : Bytes) (base : UInt16) : Nat → Nat → Option (List Line × Option DecodeError)
  | 0, _ => some ([], none)
  | fuel + 1, start =>
    if code.length ≤ start then some ([], none)
    else do
      match ← length code start with
      | .error cause => return ([], some cause)
      | .ok n =>
        let op ← Opcode.ofByte? (← code[start]?)
        let operands ← fetch code op.operands (start + 1)
        let (lines, failure) ← walk code base fuel (start + n)
        return (⟨base.toNat + start, op, operands⟩ :: lines, failure)

section
variable {code : Bytes} {start n : Nat}

/-- The byte at an index, and the code behind it. -/
theorem get_of_drop {b : UInt8} {rest : Bytes} (h : code.drop start = b :: rest) :
    code[start]? = some b ∧ code.drop (start + 1) = rest := by
  constructor
  · rw [← List.head?_drop, h]
    rfl
  · rw [← List.drop_drop, h]
    rfl

/-- An instruction that has run past the end does so to its last operand. -/
theorem measure_of_lt : ∀ (kinds : List OperandKind) {n : Nat}, code.length < start + n →
    measure code start kinds n = some none
  | [], n, h => by rw [measure, if_pos h]
  | .byte :: kinds, n, h => by rw [measure, measure_of_lt kinds (by omega)]
  | .distance :: kinds, n, h => by rw [measure, measure_of_lt kinds (by omega)]
  | .address :: kinds, n, h => by rw [measure, measure_of_lt kinds (by omega)]
  | .sized :: kinds, n, h => by rw [measure, if_pos (Nat.le_of_lt h)]

/-- One operand is measured as it is read. -/
theorem measure_cons {kind : OperandKind} {kinds : List OperandKind}
    (h : start + n ≤ code.length) :
    measure code start (kind :: kinds) n =
      match Operand.read? kind (code.drop (start + n)) with
      | none => some none
      | some (operand, _) => measure code start kinds (n + operand.length) := by
  have hlength : (code.drop (start + n)).length = code.length - (start + n) := List.length_drop
  cases kind with
  | byte =>
    cases hdrop : code.drop (start + n) with
    | nil =>
      rw [hdrop, List.length_nil] at hlength
      exact measure_of_lt kinds (by omega)
    | cons value rest => rfl
  | distance =>
    cases hdrop : code.drop (start + n) with
    | nil =>
      rw [hdrop, List.length_nil] at hlength
      exact measure_of_lt kinds (by omega)
    | cons value rest => rfl
  | address =>
    rcases hdrop : code.drop (start + n) with _ | ⟨low, _ | ⟨high, rest⟩⟩
    · rw [hdrop, List.length_nil] at hlength
      exact measure_of_lt kinds (by omega)
    · rw [hdrop, List.length_singleton] at hlength
      exact measure_of_lt kinds (by omega)
    · rfl
  | sized =>
    cases hdrop : code.drop (start + n) with
    | nil =>
      rw [hdrop, List.length_nil] at hlength
      rw [measure, if_pos (by omega)]
      rfl
    | cons size rest =>
      rw [hdrop, List.length_cons] at hlength
      rw [measure, if_neg (by omega), (get_of_drop hdrop).1]
      by_cases hshort : rest.length < size.toNat
      · have hread : Operand.read? .sized (size :: rest) = none := by
          simp only [Operand.read?, List.length_take]
          rw [if_neg (by omega)]
        rw [hread]
        exact measure_of_lt kinds (by omega)
      · have hread : Operand.read? .sized (size :: rest) =
            some (.sized (rest.take size.toNat), rest.drop size.toNat) := by
          simp [Operand.read?, Nat.not_lt.mp hshort]
        simp only [hread, Operand.length, List.length_take, Nat.min_eq_left (Nat.not_lt.mp hshort),
          ← Nat.add_assoc]
        rfl

/-- The length measured is that of the operands that are read. -/
theorem measure_eq : ∀ {kinds : List OperandKind} {n : Nat}, start + n ≤ code.length →
    measure code start kinds n = some ((Operand.readAll? kinds (code.drop (start + n))).map
      fun answer => n + answer.1.foldr (fun operand length => operand.length + length) 0)
  | [], n, h => by
    rw [measure, if_neg (by omega)]
    rfl
  | kind :: kinds, n, h => by
    rw [measure_cons h]
    cases hread : Operand.read? kind (code.drop (start + n)) with
    | none => simp [Operand.readAll?, hread]
    | some found =>
      obtain ⟨operand, rest⟩ := found
      have hrest := Operand.drop_read? hread
      rw [List.drop_drop] at hrest
      have hle : start + (n + operand.length) ≤ code.length := by
        have hlength := congrArg List.length (Operand.read?_eq_some.mp hread).2
        rw [List.length_append, Operand.length_encode, List.length_drop] at hlength
        omega
      rw [Nat.add_assoc] at hrest
      simp only [measure_eq hle, Operand.readAll?, hread, ← hrest]
      cases hothers : Operand.readAll? kinds rest <;> simp [hothers, Nat.add_assoc]

/-- An operand that can be read is fetched. -/
theorem fetch_cons {kind : OperandKind} {kinds : List OperandKind} {operand : Operand}
    {rest : Bytes} (h : Operand.read? kind (code.drop start) = some (operand, rest)) :
    fetch code (kind :: kinds) start =
      (fetch code kinds (start + operand.length)).map (operand :: ·) := by
  have hat : ∀ k, code[start + k]? = (code.drop start)[k]? := fun k => by rw [List.getElem?_drop]
  have hfirst : code[start]? = (code.drop start)[0]? := hat 0
  obtain ⟨hkind, hcode⟩ := Operand.read?_eq_some.mp h
  cases kind <;> cases operand <;> simp only [Operand.OfKind] at hkind
  case byte.byte value =>
    have hvalue : code[start]? = some value := by
      rw [hfirst, hcode]
      rfl
    rw [fetch, hvalue, Option.map_eq_bind]
    rfl
  case distance.distance value =>
    have hvalue : code[start]? = some value := by
      rw [hfirst, hcode]
      rfl
    rw [fetch, hvalue, Option.map_eq_bind]
    rfl
  case address.address value =>
    have hlow : code[start]? = some value.toUInt8 := by
      rw [hfirst, hcode]
      rfl
    have hhigh : code[start + 1]? = some (value >>> 8).toUInt8 := by
      rw [hat, hcode]
      rfl
    rw [fetch, hlow, Option.map_eq_bind]
    show (code[start + 1]?).bind _ = _
    rw [hhigh]
    show (fetch code kinds (start + 2)).bind (some ∘ (Operand.address _ :: ·)) = _
    rw [addressOfBytes_addressBytes]
    rfl
  case sized.sized bytes =>
    have hsize : bytes.length.toUInt8.toNat = bytes.length := by
      rw [Nat.toUInt8, UInt8.toNat_ofNat']
      omega
    have hliteral : slice code (start + 1) bytes.length = some bytes := by
      have hlength := congrArg List.length hcode
      rw [List.length_append, Operand.length_encode, Operand.length, List.length_drop] at hlength
      rw [slice, if_pos (by omega), ← List.drop_drop, hcode]
      simp [Operand.encode]
    have hbyte : code[start]? = some bytes.length.toUInt8 := by
      rw [hfirst, hcode]
      rfl
    rw [fetch, hbyte]
    show (slice code (start + 1) bytes.length.toUInt8.toNat).bind _ = _
    rw [hsize, hliteral, Operand.length, ← Nat.add_assoc, Option.map_eq_bind]
    rfl

theorem fetch_eq : ∀ {kinds : List OperandKind} {start : Nat} {operands : List Operand}
    {rest : Bytes}, Operand.readAll? kinds (code.drop start) = some (operands, rest) →
    fetch code kinds start = some operands
  | [], start, operands, rest, h => by
    cases h
    rfl
  | kind :: kinds, start, operands, rest, h => by
    obtain ⟨operand, between, others, hread, hothers, rfl⟩ := Operand.readAll?_cons h
    have hbetween := Operand.drop_read? hread
    rw [List.drop_drop] at hbetween
    rw [hbetween] at hothers
    rw [fetch_cons hread, fetch_eq hothers]
    rfl

/-- Measuring an instruction tells whether it can be read, and how long it is then. -/
theorem length_eq (h : start < code.length) :
    length code start = some ((Instruction.read start (code.drop start)).map (·.1.length)) := by
  obtain ⟨b, rest, hdrop⟩ :=
    List.exists_cons_of_ne_nil (mt List.drop_eq_nil_iff.mp (Nat.not_le.mpr h))
  obtain ⟨hfirst, hrest⟩ := get_of_drop hdrop
  rw [length, if_neg (Nat.not_le.mpr h), hfirst, hdrop, Instruction.read]
  cases hop : Opcode.ofByte? b with
  | none => simp [hop, Except.map]
  | some op =>
    have hmeasure : measure code start op.operands 1 = _ := measure_eq h
    rw [hrest] at hmeasure
    cases hoperands : Operand.readAll? op.operands rest with
    | none => simp [hop, hmeasure, hoperands, Except.map]
    | some answer => simp [hop, hmeasure, hoperands, Except.map, Instruction.length]

theorem walk_from (base : UInt16) : ∀ {fuel start : Nat}, start ≤ code.length →
    walk code base fuel start =
      some ((Instruction.readFrom fuel start (code.drop start)).1.map
          fun entry => ⟨base.toNat + entry.1, entry.2⟩,
        (Instruction.readFrom fuel start (code.drop start)).2)
  | 0, start, h => rfl
  | fuel + 1, start, h => by
    by_cases hend : code.length ≤ start
    · rw [walk, if_pos hend, List.drop_eq_nil_of_le hend]
      rfl
    have hne : (code.drop start).isEmpty = false := by
      rw [List.isEmpty_eq_false_iff, ne_eq, List.drop_eq_nil_iff]
      exact hend
    rw [walk, if_neg hend, length_eq (Nat.not_le.mp hend), Instruction.readFrom, hne]
    cases hread : Instruction.read start (code.drop start) with
    | error cause => rfl
    | ok answer =>
      obtain ⟨instruction, rest⟩ := answer
      obtain ⟨b, behind, hdrop⟩ := List.exists_cons_of_ne_nil (List.isEmpty_eq_false_iff.mp hne)
      obtain ⟨hfirst, hbehind⟩ := get_of_drop hdrop
      rw [hdrop] at hread
      obtain ⟨hop, hoperands⟩ := Instruction.of_read hread
      have hrest := Instruction.drop_read hread
      rw [← hdrop, List.drop_drop] at hrest
      have hle : start + instruction.length ≤ code.length := by
        have hlength := congrArg List.length (Instruction.eq_encode_of_read hread)
        rw [List.length_append, Instruction.length_encode, ← hdrop, List.length_drop] at hlength
        omega
      have hfetch : fetch code instruction.op.operands (start + 1) = some instruction.operands :=
        fetch_eq (hbehind ▸ hoperands)
      simp [Except.map, hfirst, hop, hfetch, walk_from base hle, hrest]

end

/-- **No byte outside the code is asked for**, and the walk gives the listing. -/
theorem walk_eq (code : Bytes) (base : UInt16) :
    walk code base code.length 0 = some (disassemble code base) :=
  walk_from base (Nat.zero_le _)

end Indexed

/-- **A listing is a lossless partition of its code.** Its lines lie one behind the other from the
start of the code on, and written out again they are the bytes they cover; they cover the whole
code if and only if decoding succeeds, and otherwise the code goes on with a byte that is no opcode
or an instruction that runs past the end. No byte outside the code is asked for. -/
theorem disassemble_partition (code : Bytes) (base : UInt16) :
    Indexed.walk code base code.length 0 = some (disassemble code base) ∧
      Partition code base (disassemble code base).1 (disassemble code base).2 :=
  ⟨Indexed.walk_eq code base, partition_disassemble code base⟩

end Terrace
