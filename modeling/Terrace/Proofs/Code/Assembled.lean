/-
# Assembled code

What an assembly made of its items. Each item is one encoded instruction
(`Item.instruction`), the instructions lie at the addresses of the items, and a
branch or call leads to the address of the item it points at, whichever of its
encodings was chosen (`Line.target_branch`). So a listing of the assembled code shows
the items again, in order and each at its address (`Emitter.disassemble_assemble`).

Key definitions: `Item.Resolved`, `Item.Encodable`, `Assembled`, `Item.instruction`, `Item.ShownBy`.
Key theorems: `Emitter.assemble_ok`, `Assembled.encodeItems_eq`,
`Emitter.disassemble_assemble`.
-/
import Terrace.Proofs.Code.Decoding
import Terrace.Proofs.Code.Layout
import Terrace.Proofs.Code.Operations

namespace Terrace

namespace Item

/-- The item waits for nothing, and all it points at is among `count` items. -/
def Resolved (count : Nat) : Item → Prop
  | .op code operands => Emitter.ByteOperands code operands.length
  | .literal value => value.length ≤ 255
  | .branch _ target => ∃ place < count, target = some place
  | .exit => False
  | .call entry => ∃ place < count, entry = some place
  | .reserve size => ∃ n : Int, 0 ≤ n ∧ n ≤ 255 ∧ size = some n

/-- The item is written as one instruction, whatever it points at and reserves. -/
def Encodable : Item → Prop
  | .op code operands => Emitter.ByteOperands code operands.length
  | .literal value => value.length ≤ 255
  | .branch .. | .call _ | .reserve _ => True
  | .exit => False

theorem Resolved.encodable {count : Nat} {item : Item} (h : item.Resolved count) :
    item.Encodable := by
  cases item with
  | op | literal | exit => exact h
  | branch | call | reserve => trivial

/-- The instruction an item at place `i` is encoded as. A waiting return is encoded as
nothing and has none. -/
def instruction (addresses : Array Nat) (i : Nat) (long : Bool) : Item → Instruction
  | .op code operands => ⟨code, operands.map .byte⟩
  | .literal [b] => ⟨.loadByte, [.byte b]⟩
  | .literal value => ⟨.loadNumber, [.sized value]⟩
  | .branch ifFalse target =>
    let here := addresses.getD i 0
    let there := addresses.getD (target.getD 0) 0
    if long then ⟨if ifFalse then .jumpIfFalse else .jump, [.address there.toUInt16]⟩
    else if ifFalse then ⟨.branchForwardIfFalse, [.distance (there - here).toUInt8]⟩
    else if i < target.getD 0 then ⟨.branchForward, [.distance (there - here).toUInt8]⟩
    else ⟨.branchBackward, [.distance (here - there).toUInt8]⟩
  | .exit => ⟨.halt, []⟩
  | .call entry => ⟨.functionCall, [.address (addresses.getD (entry.getD 0) 0).toUInt16]⟩
  | .reserve size => ⟨.allocate, [.byte (Emit.lowByte (size.getD 0))]⟩

variable {addresses : Array Nat} {i : Nat} {long : Bool}

/-- The bytes of an item are those of its instruction. -/
theorem encode_eq {item : Item} (h : item.Encodable) :
    item.encode addresses i long = (item.instruction addresses i long).encode := by
  cases item with
  | op code operands =>
    have hbytes : (operands.map Operand.byte).flatMap Operand.encode = operands := by
      simp [List.flatMap_map, Operand.encode]
    simp [encode, instruction, Instruction.encode, hbytes]
  | literal value =>
    rcases value with _ | ⟨a, _ | ⟨b, rest⟩⟩
    · rfl
    · rfl
    · simp [encode, instruction, Instruction.encode, Operand.encode]
  | branch ifFalse target =>
    simp only [encode, instruction]
    split_ifs <;> simp [Instruction.encode, Operand.encode]
  | exit => exact h.elim
  | call entry => simp [encode, instruction, Instruction.encode, Operand.encode]
  | reserve size => rfl

theorem instruction_wellFormed {item : Item} (h : item.Encodable) :
    (item.instruction addresses i long).WellFormed := by
  cases item with
  | op code operands =>
    have hkinds : ∀ bytes : Bytes, List.Forall₂ Operand.OfKind
        (List.replicate bytes.length .byte) (bytes.map Operand.byte) := by
      intro bytes
      induction bytes with
      | nil => exact .nil
      | cons b bytes ih => exact .cons trivial ih
    have hcode : code.operands = List.replicate operands.length .byte := h
    simp only [Instruction.WellFormed, instruction, hcode]
    exact hkinds operands
  | literal value =>
    rcases value with _ | ⟨a, _ | ⟨b, rest⟩⟩
    · exact .cons (Nat.zero_le _) .nil
    · exact .cons trivial .nil
    · exact .cons h .nil
  | branch ifFalse target =>
    simp only [instruction]
    split_ifs
    all_goals exact .cons trivial .nil
  | exit => exact h.elim
  | call entry => exact .cons trivial .nil
  | reserve size => exact .cons trivial .nil

theorem length_encode (item : Item) :
    (item.encode addresses i long).length = item.encodedLength long := by
  cases item with
  | op code operands => simp [encode, encodedLength, Nat.add_comm]
  | literal value =>
    rcases value with _ | ⟨a, _ | ⟨b, rest⟩⟩
    · rfl
    · rfl
    · simp [encode, encodedLength]
      omega
  | branch ifFalse target =>
    simp only [encode, encodedLength]
    split_ifs <;> simp [addressBytes]
  | exit => rfl
  | call entry => simp [encode, encodedLength, addressBytes]
  | reserve size => rfl

theorem encodedLength_pos {item : Item} (h : item.Encodable) (long : Bool) :
    0 < item.encodedLength long := by
  cases item with
  | op code operands =>
    simp only [encodedLength]
    omega
  | literal value =>
    simp only [encodedLength]
    split_ifs <;> omega
  | branch ifFalse target =>
    simp only [encodedLength]
    split_ifs <;> omega
  | exit => exact h.elim
  | call entry => simp [encodedLength]
  | reserve size => simp [encodedLength]

end Item

namespace Settled

variable {items : List Item} {base : UInt16} {longs : List Bool} {addresses : Array Nat}

theorem getD (h : Settled base items longs addresses) {i : Nat} (hi : i ≤ items.length) :
    addresses.getD i 0 = base.toNat + ((itemLengths items longs).take i).sum := by
  rw [Array.getD_eq_getD_getElem?, h.address hi, Option.getD_some]

theorem mono (h : Settled base items longs addresses) {i j : Nat} (hij : i ≤ j)
    (hj : j ≤ items.length) : addresses.getD i 0 ≤ addresses.getD j 0 := by
  rw [h.getD hj, h.getD (by omega), ← Nat.add_sub_cancel' hij, List.take_add, List.sum_append]
  omega

/-- The next item lies right behind. -/
theorem succ (h : Settled base items longs addresses) {i : Nat} {item : Item} {long : Bool}
    (hitem : items[i]? = some item) (hlong : longs[i]? = some long) :
    addresses.getD (i + 1) 0 = addresses.getD i 0 + item.encodedLength long := by
  obtain ⟨hi, _⟩ := List.getElem?_eq_some_iff.mp hitem
  have hlen : (itemLengths items longs)[i]? = some (item.encodedLength long) := by
    simp [itemLengths, List.getElem?_zipWith, hitem, hlong]
  rw [h.getD hi, h.getD (by omega), List.take_add_one, hlen]
  simp [Nat.add_assoc]

/-- The end of the code is inside memory. -/
theorem le_limit (h : Settled base items longs addresses) {i : Nat} (hi : i ≤ items.length) :
    addresses.getD i 0 ≤ 0x10000 := by
  have hend := h.fits
  have hle := h.mono hi (Nat.le_refl _)
  rw [h.getD (Nat.le_refl items.length), List.take_of_length_le
    (Nat.le_of_eq (length_itemLengths h.length))] at hle
  omega

theorem long (h : Settled base items longs addresses) {i : Nat} (hi : i < items.length) :
    ∃ long, longs[i]? = some long :=
  Option.isSome_iff_exists.mp (by simp [h.length, hi])

/-- Items lie inside memory. -/
theorem lt_limit (h : Settled base items longs addresses)
    (hencodable : ∀ item ∈ items, item.Encodable) {i : Nat} (hi : i < items.length) :
    addresses.getD i 0 < 0x10000 := by
  obtain ⟨long, hlong⟩ := h.long hi
  have hitem : items[i]? = some items[i] := List.getElem?_eq_getElem hi
  have hpos := Item.encodedLength_pos (hencodable items[i] (List.getElem_mem hi)) long
  have hsucc := h.succ hitem hlong
  have hle : addresses.getD (i + 1) 0 ≤ 0x10000 := h.le_limit hi
  omega

end Settled

/-- Items with nothing left to wait for, laid out at `base`. -/
structure Assembled (items : List Item) (base : UInt16) (longs : List Bool)
    (addresses : Array Nat) : Prop extends Settled base items longs addresses where
  resolved : ∀ item ∈ items, item.Resolved items.length
  /-- A conditional branch backwards is long. -/
  backward : ∀ (i target : Nat), items[i]? = some (.branch true (some target)) → target ≤ i →
    longs[i]? = some true

namespace Assembled

variable {items : List Item} {base : UInt16} {longs : List Bool} {addresses : Array Nat}

theorem encodable (h : Assembled items base longs addresses) : ∀ item ∈ items, item.Encodable :=
  fun item hitem => (h.resolved item hitem).encodable

/-- Items lie inside memory. -/
theorem lt_limit (h : Assembled items base longs addresses) {i : Nat} (hi : i < items.length) :
    addresses.getD i 0 < 0x10000 := h.toSettled.lt_limit h.encodable hi

/-- A branch left short is close to its target, on the side its opcode says. -/
theorem distance (h : Assembled items base longs addresses) {i target : Nat} {ifFalse : Bool}
    (hitem : items[i]? = some (.branch ifFalse (some target))) (hlong : longs[i]? = some false) :
    (i < target ∧ addresses.getD i 0 ≤ addresses.getD target 0 ∧
      addresses.getD target 0 - addresses.getD i 0 ≤ 255) ∨
    (ifFalse = false ∧ target ≤ i ∧ addresses.getD target 0 ≤ addresses.getD i 0 ∧
      addresses.getD i 0 - addresses.getD target 0 ≤ 255) := by
  obtain ⟨hi, heq⟩ := List.getElem?_eq_some_iff.mp hitem
  obtain ⟨place, hplace, rfl⟩ : ∃ place < items.length, target = place := by
    obtain ⟨place, hlt, hp⟩ := h.resolved _ (heq ▸ List.getElem_mem hi)
    exact ⟨place, hlt, Option.some.inj hp⟩
  obtain ⟨there, here, hthere, hhere, hnear⟩ := h.near hitem hlong
  have hthere' : addresses.getD target 0 = there := by
    rw [Array.getD_eq_getD_getElem?, hthere, Option.getD_some]
  have hhere' : addresses.getD i 0 = here := by
    rw [Array.getD_eq_getD_getElem?, hhere, Option.getD_some]
  rcases Nat.lt_or_ge i target with hlt | hge
  · have hmono := h.mono (Nat.le_of_lt hlt) (Nat.le_of_lt hplace)
    left
    omega
  · right
    have hcond : ifFalse = false := by
      cases ifFalse with
      | false => rfl
      | true =>
        rw [h.backward i target hitem hge] at hlong
        simp at hlong
    have hmono := h.mono hge (Nat.le_of_lt hi)
    refine ⟨hcond, hge, hmono, ?_⟩
    omega

/-- **A branch leads to the item it points at**, in each of its encodings. -/
theorem target_branch (h : Assembled items base longs addresses) {i target : Nat}
    {ifFalse long : Bool} (hitem : items[i]? = some (.branch ifFalse (some target)))
    (hlong : longs[i]? = some long) :
    (Line.mk (addresses.getD i 0)
      (Item.instruction addresses i long (.branch ifFalse (some target)))).target =
      some (addresses.getD target 0 : Int) := by
  obtain ⟨hi, heq⟩ := List.getElem?_eq_some_iff.mp hitem
  have hplace : target < items.length := by
    obtain ⟨place, hlt, hp⟩ := h.resolved _ (heq ▸ List.getElem_mem hi)
    exact Option.some.inj hp ▸ hlt
  have hlimit := h.lt_limit hplace
  have hnear := fun hshort => h.distance hitem (hlong.trans (congrArg some hshort))
  simp only [Item.instruction, Option.getD_some]
  generalize addresses.getD target 0 = there at hlimit hnear ⊢
  generalize addresses.getD i 0 = here at hnear ⊢
  cases long with
  | true =>
    have hword : there.toUInt16.toNat = there := by
      simp only [Nat.toUInt16, UInt16.toNat_ofNat']
      omega
    cases ifFalse <;> simp [Line.target, hword]
  | false =>
    have hbyte : ∀ n : Nat, n ≤ 255 → n.toUInt8.toNat = n := by
      intro n hn
      simp only [Nat.toUInt8, UInt8.toNat_ofNat']
      omega
    rcases hnear rfl with ⟨hlt, hle, hd⟩ | ⟨rfl, hge, hle, hd⟩
    · have hsum : (here : Int) + ((there - here : Nat) : Int) = there := by omega
      cases ifFalse <;> simp [Line.target, hlt, hbyte _ hd, hsum]
    · have hsum : (here : Int) - ((here - there : Nat) : Int) = there := by omega
      have hnot : ¬ i < target := by omega
      simp [Line.target, hnot, hbyte _ hd, hsum]

end Assembled

/-! ### The encoded instructions -/

/-- The instructions of items from place `i` on. -/
def itemInstructions (addresses : Array Nat) : Nat → List Item → List Bool → List Instruction
  | i, item :: items, long :: longs =>
    item.instruction addresses i long :: itemInstructions addresses (i + 1) items longs
  | _, _, _ => []

section
variable {addresses : Array Nat}

theorem length_itemInstructions : ∀ {i : Nat} {items : List Item} {longs : List Bool},
    longs.length = items.length → (itemInstructions addresses i items longs).length = items.length
  | _, [], [], _ => rfl
  | i, item :: items, long :: longs, h => by
    simp [itemInstructions, @length_itemInstructions (i + 1) items longs (by simpa using h)]

theorem itemInstructions_getElem? : ∀ {i : Nat} {items : List Item} {longs : List Bool}
    {j : Nat} {item : Item} {long : Bool}, items[j]? = some item → longs[j]? = some long →
    (itemInstructions addresses i items longs)[j]? =
      some (item.instruction addresses (i + j) long)
  | _, [], _, _, _, _, h, _ => by simp at h
  | _, _ :: _, [], _, _, _, _, h => by simp at h
  | i, x :: items, l :: longs, 0, item, long, hitem, hlong => by
    simp only [List.getElem?_cons_zero, Option.some.injEq] at hitem hlong
    simp [itemInstructions, hitem, hlong]
  | i, x :: items, l :: longs, j + 1, item, long, hitem, hlong => by
    have ih := @itemInstructions_getElem? (i + 1) items longs j item long
      (by simpa using hitem) (by simpa using hlong)
    rw [itemInstructions, List.getElem?_cons_succ, ih]
    congr 2
    omega

theorem mem_itemInstructions : ∀ {i : Nat} {items : List Item} {longs : List Bool}
    {instruction : Instruction}, instruction ∈ itemInstructions addresses i items longs →
    ∃ j long, ∃ item ∈ items, instruction = item.instruction addresses j long
  | _, [], _, _, h => by simp [itemInstructions] at h
  | _, _ :: _, [], _, h => by simp [itemInstructions] at h
  | i, item :: items, long :: longs, instruction, h => by
    rw [itemInstructions, List.mem_cons] at h
    rcases h with rfl | h
    · exact ⟨i, long, item, by simp, rfl⟩
    · obtain ⟨j, long', item', hmem, heq⟩ := mem_itemInstructions h
      exact ⟨j, long', item', by simp [hmem], heq⟩

theorem encodeItems_eq : ∀ {i : Nat} {items : List Item} {longs : List Bool},
    (∀ item ∈ items, item.Encodable) → encodeItems addresses i items longs =
      Instruction.encodeAll (itemInstructions addresses i items longs)
  | _, [], _, _ => by simp [encodeItems, itemInstructions, Instruction.encodeAll]
  | _, _ :: _, [], _ => by simp [encodeItems, itemInstructions, Instruction.encodeAll]
  | i, item :: items, long :: longs, h => by
    have ih := @encodeItems_eq (i + 1) items longs fun item hi => h item (by simp [hi])
    rw [encodeItems, ih, Item.encode_eq (h item (by simp))]
    rfl

theorem offsets_getElem? : ∀ {i : Nat} {items : List Item} {longs : List Bool},
    (∀ item ∈ items, item.Encodable) → longs.length = items.length →
    ∀ {j : Nat}, j < items.length → ∀ offset : Nat,
    (Instruction.offsets offset (itemInstructions addresses i items longs))[j]? =
      some (offset + ((itemLengths items longs).take j).sum)
  | _, [], _, _, _, j, hj, _ => by simp at hj
  | i, item :: items, long :: longs, h, hlen, 0, _, offset => by
    simp [itemInstructions, Instruction.offsets]
  | i, item :: items, long :: longs, h, hlen, j + 1, hj, offset => by
    have hlength : (item.instruction addresses i long).length = item.encodedLength long := by
      rw [← Instruction.length_encode, ← Item.encode_eq (h item (by simp)),
        Item.length_encode item]
    have ih := @offsets_getElem? (i + 1) items longs (fun item hi => h item (by simp [hi]))
      (by simpa using hlen) j (by simpa using hj) (offset + item.encodedLength long)
    rw [itemInstructions, Instruction.offsets, List.getElem?_cons_succ, hlength, ih]
    simp [itemLengths, Nat.add_assoc]

theorem length_encodeItems : ∀ {i : Nat} {items : List Item} {longs : List Bool},
    longs.length = items.length →
    (encodeItems addresses i items longs).length = (itemLengths items longs).sum
  | _, [], [], _ => by simp [encodeItems, itemLengths]
  | i, item :: items, long :: longs, hlen => by
    have ih := @length_encodeItems (i + 1) items longs (by simpa using hlen)
    simp [encodeItems, itemLengths, Item.length_encode item, ih]

/-- The code of items is read back as their instructions. -/
theorem readAll_encodeItems {items : List Item} {longs : List Bool}
    (h : ∀ item ∈ items, item.Encodable) :
    Instruction.readAll (encodeItems addresses 0 items longs) =
      ((Instruction.offsets 0 (itemInstructions addresses 0 items longs)).zip
        (itemInstructions addresses 0 items longs), none) := by
  rw [encodeItems_eq h]
  refine Instruction.readAll_encodeAll fun instruction hmem => ?_
  obtain ⟨j, long, item, hitem, rfl⟩ := mem_itemInstructions hmem
  exact Item.instruction_wellFormed (h item hitem)

end

/-! ### From the emitter to the listing -/

namespace Emitter

/-- The start, all branches and all calls point at items, every reservation has its size, and
no return and no range error is left. -/
structure Complete (e : Emitter) : Prop where
  start : ∃ place < e.items.size, e.start = some place
  branches : ∀ ifFalse target, Item.branch ifFalse target ∈ e.items →
    ∃ place < e.items.size, target = some place
  calls : ∀ entry, Item.call entry ∈ e.items → ∃ place < e.items.size, entry = some place
  reservations : ∀ size, Item.reserve size ∈ e.items →
    ∃ n : Int, 0 ≤ n ∧ n ≤ 255 ∧ size = some n
  returns : Item.exit ∉ e.items
  errors : e.pending = none

theorem Complete.resolved {e : Emitter} (h : e.Complete) (tidy : e.Tidy) {item : Item}
    (hitem : item ∈ e.items.toList) : item.Resolved e.items.toList.length := by
  have hmem : item ∈ e.items := by simpa using hitem
  rw [Array.length_toList]
  cases item with
  | op code operands => exact tidy.operands code operands hmem
  | literal value =>
    obtain ⟨i, hi⟩ := Array.mem_iff_getElem?.mp hmem
    exact tidy.literal_short h.errors hi
  | branch ifFalse target => exact h.branches ifFalse target hmem
  | exit => exact h.returns hmem
  | call entry => exact h.calls entry hmem
  | reserve size => exact h.reservations size hmem

/-- What a successful assembly did. -/
theorem assemble_ok {e e' : Emitter} {base : UInt16} {image : Image}
    (h : e.assemble base = (.ok image, e')) :
    ∃ longs addresses start, e.pending = none ∧
      relax base e.items.toList e.items.size e.firstLongs = .ok (longs, addresses) ∧
      e' = { e with addresses } ∧ addresses[e.start.getD 0]? = some start ∧
      image = ⟨encodeItems addresses 0 e.items.toList longs, base, start.toUInt16⟩ := by
  unfold assemble at h
  split at h
  · simp at h
  · simp at h
  · rename_i hpending _
    split at h
    · simp at h
    · rename_i longs addresses hrelax
      dsimp only at h
      split at h
      · simp at h
      · rename_i start hstart
        obtain ⟨himage, he⟩ := Prod.mk.inj h
        exact ⟨longs, addresses, start, hpending, hrelax, he.symm, hstart,
          (Except.ok.inj himage).symm⟩

theorem firstWaiting_of_assemble {e e' : Emitter} {base : UInt16} {image : Image}
    (h : e.assemble base = (.ok image, e')) : e.firstWaiting = none := by
  unfold assemble at h
  split at h
  · simp at h
  · simp at h
  · assumption

theorem waiting_of_firstWaiting {e : Emitter} (h : e.firstWaiting = none) {i : Nat}
    {item : Item} (hitem : e.items.toList[i]? = some item) :
    item.waiting e.items.size i = none := by
  unfold firstWaiting at h
  split at h
  · simp at h
  · rw [List.findSome?_eq_none_iff] at h
    refine h (item, i) ?_
    rw [List.mem_zipIdx_iff_getElem?]
    exact hitem

theorem length_firstLongs (e : Emitter) : e.firstLongs.length = e.items.toList.length := by
  simp [firstLongs]

theorem count_firstLongs_le (e : Emitter) : e.firstLongs.count false ≤ e.items.size := by
  rw [← Array.length_toList, ← e.length_firstLongs]
  exact List.count_le_length

/-- What is long from the start stays so, so the conditional branches backwards are long. -/
theorem backward_of_firstLongs {e : Emitter} {longs : List Bool} (h : Wider e.firstLongs longs)
    (i target : Nat) (hitem : e.items.toList[i]? = some (.branch true (some target)))
    (hle : target ≤ i) : longs[i]? = some true := by
  refine h.getElem? ?_
  simp only [firstLongs, List.getElem?_map, List.getElem?_zipIdx, hitem, Option.map_some]
  simp [Item.alwaysLong, hle]

/-- The lengths an assembly ends with are those of assembled code. -/
theorem assembled {e : Emitter} {base : UInt16} {longs : List Bool} {addresses : Array Nat}
    (hresolved : ∀ item ∈ e.items.toList, item.Resolved e.items.toList.length)
    (h : relax base e.items.toList e.items.size e.firstLongs = .ok (longs, addresses)) :
    Assembled e.items.toList base longs addresses := by
  obtain ⟨hsettled, hwider⟩ := relax_settled e.length_firstLongs e.count_firstLongs_le h
  exact ⟨hsettled, hresolved, backward_of_firstLongs hwider⟩

end Emitter

/-- A line leads to the item at a place, as `e` has assembled it. -/
def Line.LeadsTo (line : Line) (e : Emitter) (target : Option Nat) : Prop :=
  ∃ (place : Nat) (address : UInt16), target = some place ∧ e.addressOf? place = some address ∧
    line.target = some (address.toNat : Int)

/-- A line of a listing shows an item, as `e` has assembled it. -/
def Item.ShownBy (e : Emitter) (line : Line) : Item → Prop
  | .op code operands => line.instruction.op = code ∧ line.operands = operands.map UInt8.toNat
  | .literal value =>
    if value.length = 1 then
      line.instruction.op = .loadByte ∧ line.operands = value.map UInt8.toNat
    else line.instruction.op = .loadNumber ∧ line.literal = value
  | .branch ifFalse target =>
    line.instruction.op ∈ (if ifFalse then [Opcode.branchForwardIfFalse, .jumpIfFalse]
      else [.branchForward, .branchBackward, .jump]) ∧ line.LeadsTo e target
  | .exit => False
  | .call entry => line.instruction.op = .functionCall ∧ line.LeadsTo e entry
  | .reserve size => line.instruction.op = .allocate ∧ ∃ n : Nat, size = some (n : Int) ∧
    line.operands = [n]

namespace Assembled

variable {items : List Item} {base : UInt16} {longs : List Bool} {addresses : Array Nat}

/-- The address of an item as the emitter tells it. -/
theorem addressOf? (h : Assembled items base longs addresses) {e : Emitter}
    (he : e.addresses = addresses) {i : Nat} (hi : i < items.length) :
    e.addressOf? i = some (addresses.getD i 0).toUInt16 := by
  have hplace : place? (i : Int) = some i := by simp [place?]
  rw [Emitter.addressOf?, hplace]
  simp only [he, h.address (Nat.le_of_lt hi), h.getD (Nat.le_of_lt hi), Option.map_some]

theorem toNat_address (h : Assembled items base longs addresses) {i : Nat}
    (hi : i < items.length) : (addresses.getD i 0).toUInt16.toNat = addresses.getD i 0 := by
  have hlimit := h.lt_limit hi
  simp only [Nat.toUInt16, UInt16.toNat_ofNat']
  omega

/-- The line at the address of an item shows it. -/
theorem shownBy (h : Assembled items base longs addresses) {e : Emitter}
    (he : e.addresses = addresses) {i : Nat} {item : Item} {long : Bool}
    (hitem : items[i]? = some item) (hlong : longs[i]? = some long) :
    item.ShownBy e ⟨addresses.getD i 0, item.instruction addresses i long⟩ := by
  obtain ⟨hi, heq⟩ := List.getElem?_eq_some_iff.mp hitem
  have hresolved : item.Resolved items.length := h.resolved item (heq ▸ List.getElem_mem hi)
  cases item with
  | op code operands =>
    refine ⟨rfl, ?_⟩
    simp [Line.operands, Item.instruction, Function.comp_def, Operand.value]
  | literal value =>
    match value with
    | [] => exact ⟨rfl, rfl⟩
    | [b] => exact ⟨rfl, rfl⟩
    | a :: b :: rest =>
      simp [Item.ShownBy, Item.instruction, Line.literal]
  | branch ifFalse target =>
    obtain ⟨place, hplace, rfl⟩ := hresolved
    refine ⟨?_, place, _, rfl, h.addressOf? he hplace, ?_⟩
    · simp only [Item.instruction]
      cases ifFalse <;> cases long <;> simp only [Bool.false_eq_true, if_true, if_false]
      · split_ifs <;> simp
      all_goals simp
    · rw [h.toNat_address hplace]
      exact h.target_branch hitem hlong
  | exit => exact hresolved.elim
  | call entry =>
    obtain ⟨place, hplace, rfl⟩ := hresolved
    exact ⟨rfl, place, _, rfl, h.addressOf? he hplace, rfl⟩
  | reserve size =>
    obtain ⟨n, hlow, hhigh, rfl⟩ := hresolved
    refine ⟨rfl, n.toNat, by rw [Int.toNat_of_nonneg hlow], ?_⟩
    have hbyte : (Emit.lowByte n).toNat = n.toNat := by
      simp only [Emit.lowByte, Nat.toUInt8, UInt8.toNat_ofNat']
      omega
    simp [Line.operands, Item.instruction, Operand.value, hbyte]

/-- Assembled code is read back as the instructions of its items. -/
theorem readAll_encodeItems (h : Assembled items base longs addresses) :
    Instruction.readAll (encodeItems addresses 0 items longs) =
      ((Instruction.offsets 0 (itemInstructions addresses 0 items longs)).zip
        (itemInstructions addresses 0 items longs), none) :=
  Terrace.readAll_encodeItems h.encodable

/-- The instruction of an item is read where the item lies. -/
theorem readAll_getElem? (h : Assembled items base longs addresses) {i : Nat} {item : Item}
    {long : Bool} (hitem : items[i]? = some item) (hlong : longs[i]? = some long) :
    (Instruction.readAll (encodeItems addresses 0 items longs)).1[i]? =
      some (((itemLengths items longs).take i).sum, item.instruction addresses i long) := by
  obtain ⟨hi, -⟩ := List.getElem?_eq_some_iff.mp hitem
  have hoffset := @offsets_getElem? addresses 0 items longs h.encodable h.length i hi 0
  have hinstruction := @itemInstructions_getElem? addresses 0 items longs i item long hitem hlong
  rw [Nat.zero_add] at hoffset hinstruction
  rw [h.readAll_encodeItems]
  exact List.getElem?_zip_eq_some.mpr ⟨hoffset, hinstruction⟩

end Assembled

namespace Emitter

/-- **Assembly is faithful.** The listing of assembled code shows the items again: one line for
each item, in order, at the address of the item; a line of a branch or a call leads to the
address of the item it points at. The image starts at the address of the start, and its length
is the sum of the lengths of the items, with the branches as long as the assembly made them. -/
theorem disassemble_assemble {e e' : Emitter} (built : e.Built) (complete : e.Complete)
    {base : UInt16} {image : Image} (h : e.assemble base = (.ok image, e')) :
    ∃ lines, disassemble image.code base = (lines, none) ∧ lines.length = e.items.size ∧
      (∀ (i : Nat) (item : Item), e.items[i]? = some item → ∃ line, lines[i]? = some line ∧
        e'.addressOf? i = some line.address ∧ item.ShownBy e' line) ∧
      (∃ place : Nat, e.start = some place ∧ e'.addressOf? place = some image.start) ∧
      ∃ longs, relax base e.items.toList e.items.size e.firstLongs = .ok (longs, e'.addresses) ∧
        image.code.length = (itemLengths e.items.toList longs).sum := by
  obtain ⟨longs, addresses, start, -, hrelax, rfl, hstart, rfl⟩ := assemble_ok h
  have hassembled := assembled (fun _ hitem => complete.resolved built.tidy hitem) hrelax
  set lines := (disassemble (encodeItems addresses 0 e.items.toList longs) base).1 with hlines
  refine ⟨lines, ?_, ?_, ?_, ?_, longs, hrelax, ?_⟩
  · simp [hlines, disassemble, hassembled.readAll_encodeItems]
  · simp [hlines, disassemble, hassembled.readAll_encodeItems, Instruction.length_offsets,
      length_itemInstructions hassembled.length]
  · intro i item hitem
    have hitem' : e.items.toList[i]? = some item := by rw [Array.getElem?_toList, hitem]
    obtain ⟨hi, -⟩ := List.getElem?_eq_some_iff.mp hitem'
    obtain ⟨long, hlong⟩ := hassembled.long hi
    refine ⟨⟨addresses.getD i 0, item.instruction addresses i long⟩, ?_,
      hassembled.addressOf? rfl hi, hassembled.shownBy rfl hitem' hlong⟩
    rw [hassembled.getD (Nat.le_of_lt hi)]
    simp [hlines, disassemble, List.getElem?_map, hassembled.readAll_getElem? hitem' hlong]
  · obtain ⟨place, hplace, hsome⟩ := complete.start
    have hlt : place < e.items.toList.length := by simpa using hplace
    refine ⟨place, hsome, ?_⟩
    rw [hassembled.addressOf? rfl hlt]
    rw [hsome, Option.getD_some, hassembled.address (Nat.le_of_lt hlt)] at hstart
    rw [hassembled.getD (Nat.le_of_lt hlt), Option.some.inj hstart]
  · exact length_encodeItems hassembled.length

/-- The emitter that a list of operations leads to. -/
def ofOperations (operations : List Operation) : Emitter :=
  operations.foldl (fun e o => o.run.after e) {}

theorem built_ofOperations (operations : List Operation) : (ofOperations operations).Built := by
  have h : ∀ (operations : List Operation) (e : Emitter), e.Built →
      (operations.foldl (fun e o => o.run.after e) e).Built := by
    intro operations
    induction operations with
    | nil => exact fun _ he => he
    | cons o operations ih => exact fun e he => ih _ (.operation o he)
  exact h operations {} .new

/-- A function of one byte with a condition and two results of two bytes, and a main block that
calls it over and over. -/
def callingLoop : Emitter := ofOperations [
  .prologue 1, .loadVariable .frame 0 1, .branchIfFalse, .literal [1, 2], .exit, .target 3,
  .literal [3, 4], .fixReturns 0, .epilogue 1 0 2, .patchReserve 1 0,
  .reserve, .setStart 11, .pushFrame, .literal [9], .call 0, .discard 2, .branchTo 12, .halt,
  .patchReserve 11 0]

theorem callingLoop_items : callingLoop.items = #[
    .op .enterFrame [1], .reserve (some 0), .op (.loadOne .frame) [0], .branch true (some 6),
    .literal [1, 2], .branch false (some 7), .literal [3, 4], .op .free [3], .op .popFrame [],
    .op .copyValue [1, 2], .op .functionReturn [], .reserve (some 0), .op .loadFrame [],
    .literal [9], .call (some 0), .op .free [2], .branch false (some 12), .op .halt []] := by
  decide +kernel

theorem callingLoop_complete : callingLoop.Complete where
  start := ⟨11, by decide +kernel, by decide +kernel⟩
  branches := by simp [callingLoop_items]
  calls := by simp [callingLoop_items]
  reservations := by simp [callingLoop_items]
  returns := by simp [callingLoop_items]
  errors := by decide +kernel

/-- The code of `callingLoop` at address 4096. -/
def callingLoopImage : Image where
  code := [
    51, 1, 53, 0, 38, 0, 29, 8, 1, 2, 1, 2, 30, 6, 1, 2, 3, 4, 54, 3, 52, 55, 1, 2, 49,
    53, 0, 50, 2, 9, 48, 0, 16, 54, 2, 31, 8, 0]
  base := 4096
  start := 4121

theorem callingLoop_listing :
    ∃ e', callingLoop.assemble 4096 = (.ok callingLoopImage, e') ∧
      ∃ lines, disassemble callingLoopImage.code 4096 = (lines, none) ∧ lines.length = 18 ∧
        ∃ line, lines[16]? = some line ∧ (Item.branch false (some 12)).ShownBy e' line := by
  have hassemble : callingLoop.assemble 4096 =
      (.ok callingLoopImage, (callingLoop.assemble 4096).2) :=
    Prod.ext (by decide +kernel) rfl
  have hbuilt : callingLoop.Built := built_ofOperations _
  obtain ⟨lines, hread, hlength, hshown, -, -⟩ :=
    disassemble_assemble hbuilt callingLoop_complete hassemble
  obtain ⟨line, hline, -, hbranch⟩ := hshown 16 (.branch false (some 12)) (by
    rw [callingLoop_items]
    rfl)
  refine ⟨_, hassemble, lines, hread, ?_, line, hline, hbranch⟩
  rw [hlength, callingLoop_items]
  rfl

end Emitter

end Terrace
