/-
# Renumbering an image loses nothing

`Image.renumber` walks over the instructions of a code and writes, in the place of each opcode,
its place in a numbering. The walk goes by the bytes that stand there before, so an operand that
looks like an opcode is passed over, and what comes out is the code with a function applied to the
bytes at the places where instructions begin (`Image.renumberFrom_eq`). With the opcodes that the
image uses as the numbering, that function has an inverse: the opcodes can be put back.

Key definitions: `Image.boundaries`, `Bytes.mapAt`, `Image.Renumbered`.
Key theorems: `Image.renumberFrom_eq`, `Image.usedOpcodes_eq`, `Image.renumber_usedOpcodes`.
-/
import Mathlib.Tactic.Common
import Terrace.Code.Image
import Terrace.Proofs.Code.Decoding
import Terrace.Proofs.Code.Reading

namespace Terrace

/-! ### Bytes changed at given places -/

namespace Bytes

variable {offset i : Nat} {places : List Nat} {f g : UInt8 → UInt8} {bytes : Bytes}

/-- The bytes that stand from `offset` on, with `f` applied to those at one of `places`. -/
def mapAt (offset : Nat) (places : List Nat) (f : UInt8 → UInt8) (bytes : Bytes) : Bytes :=
  bytes.mapIdx fun i b => if offset + i ∈ places then f b else b

@[simp] theorem length_mapAt : (mapAt offset places f bytes).length = bytes.length :=
  List.length_mapIdx

theorem getElem?_mapAt_of_mem (h : offset + i ∈ places) :
    (mapAt offset places f bytes)[i]? = bytes[i]?.map f := by
  rw [mapAt, List.getElem?_mapIdx]
  simp only [if_pos h]

theorem getElem?_mapAt_of_not_mem (h : offset + i ∉ places) :
    (mapAt offset places f bytes)[i]? = bytes[i]? := by
  rw [mapAt, List.getElem?_mapIdx]
  simp only [if_neg h, Option.map_id_fun', id_eq]

theorem mapAt_append (first second : Bytes) :
    mapAt offset places f (first ++ second) =
      mapAt offset places f first ++ mapAt (offset + first.length) places f second := by
  rw [mapAt, List.mapIdx_append]
  simp only [mapAt, Nat.add_assoc, Nat.add_comm first.length]

/-- Places behind the bytes make no difference, and no more do those in front of them. -/
theorem mapAt_congr {others : List Nat}
    (h : ∀ i < bytes.length, offset + i ∈ places ↔ offset + i ∈ others) :
    mapAt offset places f bytes = mapAt offset others f bytes := by
  refine List.ext_getElem? fun i => ?_
  by_cases hi : i < bytes.length
  · by_cases hplace : offset + i ∈ places
    · rw [getElem?_mapAt_of_mem hplace, getElem?_mapAt_of_mem ((h i hi).mp hplace)]
    · rw [getElem?_mapAt_of_not_mem hplace, getElem?_mapAt_of_not_mem (mt (h i hi).mpr hplace)]
  · rw [List.getElem?_eq_none (by simpa using hi), List.getElem?_eq_none (by simpa using hi)]

/-- The first byte is changed alone when no other place lies among the bytes. -/
theorem mapAt_cons_self (b : UInt8) (h : ∀ i < bytes.length, offset + (i + 1) ∉ places) :
    mapAt offset (offset :: places) f (b :: bytes) = f b :: bytes := by
  refine List.ext_getElem? fun i => ?_
  cases i with
  | zero => exact getElem?_mapAt_of_mem List.mem_cons_self
  | succ i =>
    by_cases hi : i < bytes.length
    · refine getElem?_mapAt_of_not_mem ?_
      rw [List.mem_cons, not_or]
      exact ⟨by omega, h i hi⟩
    · rw [List.getElem?_eq_none (by simpa using hi), List.getElem?_eq_none (by simpa using hi)]

/-- Bytes and places may move together. -/
theorem mapAt_add (base offset : Nat) (places : List Nat) (f : UInt8 → UInt8) (bytes : Bytes) :
    mapAt (base + offset) (places.map (base + ·)) f bytes = mapAt offset places f bytes := by
  simp only [mapAt, Nat.add_assoc, List.mem_map, Nat.add_left_cancel_iff, exists_eq_right]

/-- What is undone at each of the places is undone in the whole. -/
theorem mapAt_mapAt (h : ∀ i b, offset + i ∈ places → bytes[i]? = some b → g (f b) = b) :
    mapAt offset places g (mapAt offset places f bytes) = bytes := by
  refine List.ext_getElem? fun i => ?_
  by_cases hi : offset + i ∈ places
  · rw [getElem?_mapAt_of_mem hi, getElem?_mapAt_of_mem hi]
    cases hb : bytes[i]? with
    | none => rfl
    | some b => simp [h i b hi hb]
  · rw [getElem?_mapAt_of_not_mem hi, getElem?_mapAt_of_not_mem hi]

end Bytes

/-! ### Where instructions begin -/

namespace Instruction

variable {instruction : Instruction} {code rest : Bytes}

/-- No instruction stands in front of the code it is read from. -/
theorem le_of_mem_readFrom {fuel offset : Nat} {entry : Nat × Instruction}
    (h : entry ∈ (readFrom fuel offset code).1) : offset ≤ entry.1 := by
  obtain ⟨skipped, -, hplace, -⟩ := read_of_mem h
  omega

/-- The instructions of a code that is not empty: the one at its front, and those behind it. -/
theorem readFrom_eq_cons {fuel offset : Nat} {found : List (Nat × Instruction)}
    (h : readFrom (fuel + 1) offset code = (found, none)) (hne : code.isEmpty = false) :
    ∃ first rest others, read offset code = .ok (first, rest) ∧
      readFrom fuel (offset + first.length) rest = (others, none) ∧
      found = (offset, first) :: others := by
  unfold readFrom at h
  rw [hne] at h
  simp only [Bool.false_eq_true, if_false] at h
  cases hread : read offset code with
  | error cause =>
    rw [hread] at h
    cases h
  | ok answer =>
    obtain ⟨first, rest⟩ := answer
    rw [hread] at h
    cases hrest : readFrom fuel (offset + first.length) rest with
    | mk others failure =>
      dsimp only at h
      rw [hrest] at h
      cases h
      exact ⟨first, rest, others, rfl, hrest, rfl⟩

/-- The byte at the place of an instruction is its opcode. -/
theorem getElem?_of_mem_readAll {entry : Nat × Instruction} (h : entry ∈ (readAll code).1) :
    code[entry.1]? = some entry.2.op.byte := by
  obtain ⟨skipped, rest, hplace, hread⟩ := read_of_mem h
  have hfront := eq_encode_of_read hread
  have hat : (code.drop skipped)[0]? = some entry.2.op.byte := by
    rw [hfront]
    rfl
  rw [List.getElem?_drop] at hat
  rwa [hplace, Nat.zero_add]

/-- Of an instruction the opcode alone is changed, when the other places lie behind it. -/
theorem mapAt_encode_append (instruction : Instruction) {offset : Nat} {places : List Nat}
    {f : UInt8 → UInt8} {rest : Bytes}
    (hbehind : ∀ place ∈ places, offset + instruction.length ≤ place) :
    Bytes.mapAt offset (offset :: places) f (instruction.encode ++ rest) =
      f instruction.op.byte :: (instruction.encode.drop 1 ++
        Bytes.mapAt (offset + instruction.length) places f rest) := by
  have hsize := instruction.length_encode
  have hpos := instruction.length_pos
  have hhead : Bytes.mapAt offset (offset :: places) f instruction.encode =
      f instruction.op.byte :: instruction.encode.drop 1 := by
    rw [encode] at hsize ⊢
    apply Bytes.mapAt_cons_self
    intro k hk hmem
    have hle := hbehind _ hmem
    rw [List.length_cons] at hsize
    omega
  have hrest : Bytes.mapAt (offset + instruction.length) (offset :: places) f rest =
      Bytes.mapAt (offset + instruction.length) places f rest := by
    apply Bytes.mapAt_congr
    intro k _
    rw [List.mem_cons, or_iff_right (by omega)]
  rw [Bytes.mapAt_append, hhead, hsize, hrest, List.cons_append]

end Instruction

/-! ### Numberings -/

namespace Image

variable {numbering : List UInt8} {b : UInt8}

/-- A byte of a numbering has a place in it, where it is found again. -/
theorem routineIndex_of_mem (hmem : b ∈ numbering) (hlength : numbering.length ≤ 256) :
    ∃ i, routineIndex numbering b = some i ∧ numbering[i.toNat]? = some b := by
  unfold routineIndex
  cases hi : numbering.reverse.idxOf? b with
  | none => exact absurd (List.mem_reverse.mpr hmem) (List.idxOf?_eq_none_iff.mp hi)
  | some i =>
    obtain ⟨hlt, hat, -⟩ := List.idxOf?_eq_some_iff.mp hi
    rw [List.getElem_reverse] at hat
    rw [List.length_reverse] at hlt
    refine ⟨_, rfl, ?_⟩
    have hplace : (numbering.length - 1 - i).toUInt8.toNat = numbering.length - 1 - i := by
      simp only [Nat.toUInt8, UInt8.toNat_ofNat']
      omega
    rw [hplace, List.getElem?_eq_getElem (by omega), hat]

/-- The byte that stands for `b` in a numbering; a byte that is not in it stays. -/
def indexIn (numbering : List UInt8) (b : UInt8) : UInt8 := (routineIndex numbering b).getD b

theorem getElem?_indexIn (hmem : b ∈ numbering) (hlength : numbering.length ≤ 256) :
    numbering[(indexIn numbering b).toNat]? = some b := by
  obtain ⟨i, hi, hat⟩ := routineIndex_of_mem hmem hlength
  rw [indexIn, hi]
  exact hat

/-- The opcode byte that stands at a place of a numbering; a byte that is no place stays. -/
def byteAt (numbering : List UInt8) (i : UInt8) : UInt8 := numbering.getD i.toNat i

theorem byteAt_indexIn (hmem : b ∈ numbering) (hlength : numbering.length ≤ 256) :
    byteAt numbering (indexIn numbering b) = b := by
  rw [byteAt, List.getD_eq_getElem?_getD, getElem?_indexIn hmem hlength, Option.getD_some]

/-! ### The walk over the instructions -/

/-- **Renumbering changes the bytes where instructions begin**, and those alone: the walk finds
the places that a listing shows. -/
theorem renumberFrom_eq (base : Nat) : ∀ {fuel offset : Nat} {code : Bytes}
    {found : List (Nat × Instruction)}, code.length ≤ fuel →
    Instruction.readFrom fuel offset code = (found, none) →
    (∀ entry ∈ found, entry.2.op.byte ∈ numbering) →
    numbering.length ≤ 256 →
    renumberFrom base numbering fuel offset code =
      .ok (code.mapAt offset (found.map Prod.fst) (indexIn numbering))
  | 0, offset, code, found, hfuel, _, _, _ => by
    rw [List.eq_nil_of_length_eq_zero (Nat.le_zero.mp hfuel)]
    rfl
  | fuel + 1, offset, code, found, hfuel, hfound, hnumbering, hlength => by
    unfold renumberFrom
    cases hempty : code.isEmpty with
    | true =>
      rw [List.isEmpty_iff.mp hempty]
      rfl
    | false =>
      obtain ⟨first, rest, others, hread, hothers, rfl⟩ :=
        Instruction.readFrom_eq_cons hfound hempty
      have hsize := first.length_encode
      have hpos := first.length_pos
      have hcode := Instruction.eq_encode_of_read hread
      have hrest : rest.length ≤ fuel := by
        rw [hcode, List.length_append] at hfuel
        omega
      obtain ⟨i, hi, -⟩ := routineIndex_of_mem (hnumbering _ List.mem_cons_self) hlength
      -- The places behind the first instruction lie behind its bytes.
      have hbehind : ∀ place ∈ others.map Prod.fst, offset + first.length ≤ place := by
        intro place hplace
        obtain ⟨entry, hmem, rfl⟩ := List.mem_map.mp hplace
        have hentry : entry ∈
            (Instruction.readFrom fuel (offset + first.length) rest).1 := by
          rw [hothers]
          exact hmem
        exact Instruction.le_of_mem_readFrom hentry
      have htail := renumberFrom_eq base hrest hothers
        (fun entry hentry => hnumbering entry (List.mem_cons_of_mem _ hentry)) hlength
      have hindex : indexIn numbering first.op.byte = i := by rw [indexIn, hi, Option.getD_some]
      simp only [Bool.false_eq_true, if_false, hread, hi, htail, bind, Except.bind, pure,
        Except.pure, List.map_cons]
      rw [hcode, List.take_left' hsize, first.mapAt_encode_append hbehind, hindex]

end Image

/-! ### The opcodes an image uses -/

namespace Image

variable {image : Image} {found : List (Nat × Instruction)}

theorem instructions_eq (h : Instruction.readAll image.code = (found, none)) :
    image.instructions = .ok found := by
  rw [instructions, h]

/-- The opcodes of some instructions, each once, in the order of opcodes. -/
def opcodesOf (found : List (Nat × Instruction)) : List Opcode :=
  Opcode.all.filter (found.map fun entry => entry.2.op).contains

theorem usedOpcodes_eq (h : Instruction.readAll image.code = (found, none)) :
    image.usedOpcodes = .ok (opcodesOf found) := by
  simp only [usedOpcodes, usage, instructions_eq h, bind, Except.bind, pure, Except.pure,
    List.map_filterMap, Except.ok.injEq]
  rw [opcodesOf, ← List.filterMap_eq_filter]
  congr 1
  funext op
  rw [Option.guard]
  split_ifs with hop
  · rfl
  · rfl

theorem mem_opcodesOf {op : Opcode} :
    op ∈ opcodesOf found ↔ ∃ entry ∈ found, entry.2.op = op := by
  have hall : op ∈ Opcode.all := by
    refine List.mem_of_getElem? (i := op.byte.toNat) ?_
    have hback := Opcode.ofByte?_byte op
    simpa only [Opcode.ofByte?, Opcode.table, List.getElem?_toArray] using hback
  simp only [opcodesOf, List.mem_filter, List.contains_iff_mem, List.mem_map, hall, true_and]

theorem pairwise_opcodesOf (found : List (Nat × Instruction)) :
    (opcodesOf found).Pairwise fun first second => first.byte < second.byte := by
  have hall : Opcode.all.Pairwise fun first second => first.byte < second.byte := by decide
  exact hall.filter _

theorem length_opcodesOf_le (found : List (Nat × Instruction)) :
    ((opcodesOf found).map Opcode.byte).length ≤ 256 := by
  have hle := List.length_filter_le (found.map fun entry => entry.2.op).contains Opcode.all
  have hall : Opcode.all.length = 57 := rfl
  rw [List.length_map, opcodesOf]
  omega

theorem byte_mem_opcodesOf {entry : Nat × Instruction} (h : entry ∈ found) :
    entry.2.op.byte ∈ (opcodesOf found).map Opcode.byte :=
  List.mem_map_of_mem (mem_opcodesOf.mpr ⟨entry, h, rfl⟩)

/-! ### Renumbering by the opcodes an image uses -/

/-- The addresses where the instructions of an image begin. -/
def boundaries (image : Image) : List Nat :=
  (disassemble image.code image.base).1.map Line.position

/-- `result` is `image` with the opcode of each instruction replaced by its place among
`used`. -/
structure Renumbered (image : Image) (used : List Opcode) (result : Image) : Prop where
  base : result.base = image.base
  start : result.start = image.start
  length : result.code.length = image.code.length
  /-- A byte that begins no instruction stays. -/
  operands : ∀ i, image.base.toNat + i ∉ image.boundaries → result.code[i]? = image.code[i]?
  /-- The byte that begins an instruction becomes a place of its opcode. -/
  opcodes : ∀ line ∈ (disassemble image.code image.base).1, ∃ i b,
    line.position = image.base.toNat + i ∧ image.code[i]? = some line.instruction.op.byte ∧
      result.code[i]? = some b ∧ used[b.toNat]? = some line.instruction.op
  /-- Every place is used. -/
  onto : ∀ k < used.length, ∃ i b, image.base.toNat + i ∈ image.boundaries ∧
    result.code[i]? = some b ∧ b.toNat = k
  /-- The opcodes can be put back where they were. -/
  restored : { result with
    code := result.code.mapAt image.base.toNat image.boundaries
      (byteAt (used.map Opcode.byte)) } = image

theorem lines_eq (h : Instruction.readAll image.code = (found, none)) :
    (disassemble image.code image.base).1 =
      found.map fun entry => ⟨image.base.toNat + entry.1, entry.2⟩ := by
  rw [disassemble, h]

theorem boundaries_eq (h : Instruction.readAll image.code = (found, none)) :
    image.boundaries = (found.map Prod.fst).map (image.base.toNat + ·) := by
  rw [boundaries, lines_eq h, List.map_map, List.map_map]
  rfl

theorem mem_boundaries (h : Instruction.readAll image.code = (found, none))
    {entry : Nat × Instruction} (hentry : entry ∈ found) :
    image.base.toNat + entry.1 ∈ image.boundaries := by
  rw [boundaries_eq h]
  exact List.mem_map_of_mem (List.mem_map_of_mem hentry)

theorem renumber_eq {numbering : List UInt8}
    (h : Instruction.readAll image.code = (found, none))
    (hnumbering : ∀ entry ∈ found, entry.2.op.byte ∈ numbering)
    (hlength : numbering.length ≤ 256) :
    image.renumber numbering = .ok { image with
      code := image.code.mapAt image.base.toNat image.boundaries (indexIn numbering) } := by
  have hmap := Bytes.mapAt_add image.base.toNat 0 (found.map Prod.fst) (indexIn numbering)
    image.code
  rw [renumber, renumberFrom_eq _ (Nat.le_refl _) h hnumbering hlength, boundaries_eq h, ← hmap]
  rfl

/-- An instruction begins with its opcode. -/
theorem getElem?_at (h : Instruction.readAll image.code = (found, none))
    {entry : Nat × Instruction} (hentry : entry ∈ found) :
    image.code[entry.1]? = some entry.2.op.byte := by
  apply Instruction.getElem?_of_mem_readAll
  rw [h]
  exact hentry

/-- The byte that stands after renumbering where an instruction begins. -/
theorem getElem?_indexIn_at {used : List Opcode} {entry : Nat × Instruction}
    (h : Instruction.readAll image.code = (found, none)) (hentry : entry ∈ found) :
    (image.code.mapAt image.base.toNat image.boundaries
      (indexIn (used.map Opcode.byte)))[entry.1]? =
        some (indexIn (used.map Opcode.byte) entry.2.op.byte) := by
  rw [Bytes.getElem?_mapAt_of_mem (mem_boundaries h hentry), getElem?_at h hentry,
    Option.map_some]

theorem renumbered_opcodesOf (h : Instruction.readAll image.code = (found, none)) :
    image.Renumbered (opcodesOf found) { image with
      code := image.code.mapAt image.base.toNat image.boundaries
        (indexIn ((opcodesOf found).map Opcode.byte)) } := by
  have hlength := length_opcodesOf_le found
  have hplace : ∀ entry ∈ found,
      (opcodesOf found)[(indexIn ((opcodesOf found).map Opcode.byte) entry.2.op.byte).toNat]? =
        some entry.2.op := by
    intro entry hentry
    have hat := getElem?_indexIn (byte_mem_opcodesOf hentry) hlength
    rw [List.getElem?_map, Option.map_eq_some_iff] at hat
    obtain ⟨op, hop, hbyte⟩ := hat
    rw [hop, Opcode.byte_injective hbyte]
  refine ⟨rfl, rfl, Bytes.length_mapAt, fun i hi => Bytes.getElem?_mapAt_of_not_mem hi, ?_, ?_, ?_⟩
  · intro line hline
    rw [lines_eq h] at hline
    obtain ⟨entry, hentry, rfl⟩ := List.mem_map.mp hline
    exact ⟨entry.1, _, rfl, getElem?_at h hentry, getElem?_indexIn_at h hentry,
      hplace entry hentry⟩
  · intro k hk
    have hmem := List.getElem_mem hk
    obtain ⟨entry, hentry, hop⟩ := mem_opcodesOf.mp hmem
    refine ⟨entry.1, _, mem_boundaries h hentry, getElem?_indexIn_at h hentry, ?_⟩
    -- No opcode stands at two places of the numbering.
    have hnodup : (opcodesOf found).Nodup := by
      refine (pairwise_opcodesOf found).imp fun hlt heq => ?_
      rw [heq] at hlt
      exact absurd hlt (by simp)
    have hat := hplace entry hentry
    obtain ⟨hlt, -⟩ := List.getElem?_eq_some_iff.mp hat
    rw [hop, ← List.getElem?_eq_getElem hk] at hat
    rw [hop] at hlt ⊢
    exact (List.getElem?_inj hlt hnodup).mp hat
  · have hback : (image.code.mapAt image.base.toNat image.boundaries
        (indexIn ((opcodesOf found).map Opcode.byte))).mapAt image.base.toNat image.boundaries
        (byteAt ((opcodesOf found).map Opcode.byte)) = image.code := by
      refine Bytes.mapAt_mapAt fun i b hi hb => ?_
      rw [boundaries_eq h, List.map_map, List.mem_map] at hi
      obtain ⟨entry, hentry, hoffset⟩ := hi
      have heq : entry.1 = i := Nat.add_left_cancel hoffset
      rw [← heq, getElem?_at h hentry] at hb
      cases hb
      exact byteAt_indexIn (byte_mem_opcodesOf hentry) hlength
    rw [hback]

/-- **Renumbering can be undone.** For an image that decodes completely, the used opcodes are those
of its listing, each once and in order. Renumbering by them succeeds and changes nothing but the
bytes where instructions begin, each into a place of its opcode; every place occurs, and putting
the opcodes back gives the image again. -/
theorem renumber_usedOpcodes (h : (disassemble image.code image.base).2 = none) :
    ∃ used result, image.usedOpcodes = .ok used ∧
      (∀ op, op ∈ used ↔
        ∃ line ∈ (disassemble image.code image.base).1, line.instruction.op = op) ∧
      used.Pairwise (fun first second => first.byte < second.byte) ∧
      image.renumber (used.map Opcode.byte) = .ok result ∧ image.Renumbered used result := by
  obtain ⟨found, hfound⟩ : ∃ found, Instruction.readAll image.code = (found, none) := by
    cases hread : Instruction.readAll image.code with
    | mk found failure =>
      rw [disassemble, hread] at h
      cases h
      exact ⟨found, rfl⟩
  refine ⟨opcodesOf found, _, usedOpcodes_eq hfound, fun op => ?_, pairwise_opcodesOf found,
    renumber_eq hfound (fun _ => byte_mem_opcodesOf) (length_opcodesOf_le found),
    renumbered_opcodesOf hfound⟩
  simp only [mem_opcodesOf, lines_eq hfound, List.mem_map, exists_exists_and_eq_and]

/-- An image whose literal, of two bytes, looks like two opcodes. -/
def lookalike : Image := ⟨[2, 1, 1, 2, 2, 0], 0x0200, 0x0200⟩

theorem renumber_usedOpcodes_lookalike :
    (disassemble lookalike.code lookalike.base).2 = none ∧
      ∃ used result, lookalike.usedOpcodes = .ok used ∧
        lookalike.renumber (used.map Opcode.byte) = .ok result ∧
        lookalike.Renumbered used result := by
  have hdecodes : (disassemble lookalike.code lookalike.base).2 = none := by decide
  obtain ⟨used, result, hused, -, -, hresult, hrenumbered⟩ := renumber_usedOpcodes hdecodes
  exact ⟨hdecodes, used, result, hused, hresult, hrenumbered⟩

example : renumber ⟨[2, 1, 1, 2, 2, 0], 0x0200, 0x0200⟩ [1, 2] =
    .ok ⟨[1, 1, 0, 2, 2, 0], 0x0200, 0x0200⟩ := by
  decide

end Image

end Terrace
