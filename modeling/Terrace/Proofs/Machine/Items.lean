/-
# What each item does

An assembled program in memory, seen item by item: where the instruction of an item lies
and where the machine goes from it. A branch goes to the item it points at, whichever
encoding it has, so from here on the program counter only matters as the address of an
item.

Key definitions: `Assembly`, `Assembly.address`, `Site.Carries`, `ItemPath`.
Key theorems: `Site.Carries.item`, `Stands.op_item`, `Stands.branch_item`,
`Stands.branch_if_false_item`, `Stands.call_item`, `Stands.reserve_item`, `ItemPath.op`.
-/
import Terrace.Proofs.Code.Assembled
import Terrace.Proofs.Machine.Instructions

namespace Terrace

/-- Items with the layout an assembly gave them. -/
structure Assembly where
  items : List Item
  base : UInt16
  longs : List Bool
  addresses : Array Nat
  assembled : Assembled items base longs addresses

namespace Assembly

variable (c : Assembly)

/-- The address of an item. -/
def address (i : Nat) : Nat := c.addresses.getD i 0

/-- The bytes of the code. -/
def code : Bytes := encodeItems c.addresses 0 c.items c.longs

variable {c}

theorem address_succ {i : Nat} {item : Item} {long : Bool} (hitem : c.items[i]? = some item)
    (hlong : c.longs[i]? = some long) :
    c.address (i + 1) = c.address i + item.encodedLength long :=
  c.assembled.succ hitem hlong

theorem address_lt {i : Nat} (hi : i < c.items.length) : c.address i < 65536 :=
  c.assembled.lt_limit hi

theorem address_le {i : Nat} (hi : i ≤ c.items.length) : c.address i ≤ 65536 :=
  c.assembled.le_limit hi

theorem toNat_address {i : Nat} (hi : i < c.items.length) :
    (c.address i).toUInt16.toNat = c.address i := by
  have hlt := c.address_lt hi
  simp only [Nat.toUInt16, UInt16.toNat_ofNat']
  omega

theorem long {i : Nat} {item : Item} (hitem : c.items[i]? = some item) :
    ∃ long, c.longs[i]? = some long :=
  c.assembled.long (List.getElem?_eq_some_iff.mp hitem).1

theorem resolved {i : Nat} {item : Item} (hitem : c.items[i]? = some item) :
    item.Resolved c.items.length :=
  c.assembled.resolved item (List.mem_of_getElem? hitem)

/-- A branch left short is close to its target, on the side its opcode says. -/
theorem distance {i target : Nat} {ifFalse : Bool}
    (hitem : c.items[i]? = some (.branch ifFalse (some target)))
    (hlong : c.longs[i]? = some false) :
    (i < target ∧ c.address i ≤ c.address target ∧ c.address target - c.address i ≤ 255) ∨
    (ifFalse = false ∧ target ≤ i ∧ c.address target ≤ c.address i ∧
      c.address i - c.address target ≤ 255) :=
  c.assembled.distance hitem hlong

/-- What a branch points at is an item. -/
theorem branch_lt {i target : Nat} {ifFalse : Bool}
    (hitem : c.items[i]? = some (.branch ifFalse (some target))) : target < c.items.length := by
  obtain ⟨place, hplace, hsome⟩ := c.resolved hitem
  exact Option.some.inj hsome ▸ hplace

/-- The bytes of a branch. -/
theorem encode_branch {i target : Nat} {ifFalse long : Bool} :
    (Item.branch ifFalse (some target)).encode c.addresses i long =
      if long then
        (if ifFalse then Opcode.jumpIfFalse else Opcode.jump).byte ::
          addressBytes (c.address target).toUInt16
      else if ifFalse then
        [Opcode.branchForwardIfFalse.byte, (c.address target - c.address i).toUInt8]
      else if i < target then
        [Opcode.branchForward.byte, (c.address target - c.address i).toUInt8]
      else [Opcode.branchBackward.byte, (c.address i - c.address target).toUInt8] :=
  rfl

end Assembly

/-- The bytes of an item stand in the code behind those of the items before it. -/
theorem occurs_encodeItems {count : Nat} {addresses : Array Nat} :
    ∀ {i : Nat} {items : List Item} {longs : List Bool} {j : Nat} {item : Item} {long : Bool},
    (∀ item ∈ items, item.Resolved count) → items[j]? = some item → longs[j]? = some long →
    Occurs (encodeItems addresses i items longs) ((itemLengths items longs).take j).sum
      (item.encode addresses (i + j) long)
  | _, [], _, _, _, _, _, h, _ => by simp at h
  | _, _ :: _, [], _, _, _, _, _, h => by simp at h
  | i, x :: items, l :: longs, 0, item, long, hres, hitem, hlong => by
    simp only [List.getElem?_cons_zero, Option.some.injEq] at hitem hlong
    subst hitem
    subst hlong
    have hocc := occurs_middle [] (x.encode addresses i l) (encodeItems addresses (i + 1) items longs)
    simpa [encodeItems] using hocc
  | i, x :: items, l :: longs, j + 1, item, long, hres, hitem, hlong => by
    have ih := @occurs_encodeItems count addresses (i + 1) items longs j item long
      (fun y hy => hres y (by simp [hy])) (by simpa using hitem) (by simpa using hlong)
    have hlength : (x.encode addresses i l).length = x.encodedLength l :=
      Item.length_encode x
    intro k b hk
    have hplace : i + 1 + j = i + (j + 1) := by omega
    rw [hplace] at ih
    have hat := ih k b hk
    rw [encodeItems, itemLengths, List.zipWith_cons_cons, List.take_succ_cons, List.sum_cons,
      ← itemLengths, List.getElem?_append_right (by omega), hlength, Nat.add_assoc,
      Nat.add_sub_cancel_left]
    exact hat

/-- The code of an assembly lies below the stacks, at its base. -/
def Site.Carries (site : Site) (c : Assembly) : Prop := Occurs site.low c.base.toNat c.code

/-- **The bytes of an item lie at its address.** -/
theorem Site.Carries.item {site : Site} {c : Assembly} (h : site.Carries c) {i : Nat} {item : Item}
    {long : Bool} (hitem : c.items[i]? = some item) (hlong : c.longs[i]? = some long) :
    Occurs site.low (c.address i) (item.encode c.addresses i long) := by
  obtain ⟨hi, _⟩ := List.getElem?_eq_some_iff.mp hitem
  have hin := @occurs_encodeItems _ c.addresses 0 _ _ _ _ _ c.assembled.resolved hitem hlong
  rw [Nat.zero_add] at hin
  have haddress : c.address i = c.base.toNat + ((itemLengths c.items c.longs).take i).sum :=
    c.assembled.getD (Nat.le_of_lt hi)
  intro k b hk
  rw [haddress, Nat.add_assoc]
  exact h _ _ (hin k b hk)

namespace Stands

open Machine

variable {site : Site} {c : Assembly} {m : Machine} {v : View} {E : Stop → Prop} {i : Nat}

/-- The bytes of an opcode item, and the address behind it. -/
theorem op_item (hsite : site.Carries c) {op : Opcode} {operands : Bytes}
    (hitem : c.items[i]? = some (.op op operands)) :
    Occurs site.low (c.address i) (op.byte :: operands) ∧
      c.address (i + 1) = c.address i + (1 + operands.length) := by
  obtain ⟨long, hlong⟩ := c.long hitem
  exact ⟨hsite.item hitem hlong, c.address_succ hitem hlong⟩

theorem literal_item (hsite : site.Carries c) (h : Stands site m v) {bytes : Bytes}
    (hE : site.room < v.stack.length + bytes.length → ∀ {stop}, Stop.Exhausted stop → E stop)
    (hitem : c.items[i]? = some (.literal bytes)) (hpc : v.pc = c.address i) :
    Moves site m E fun v' => v' = { v with
      pc := c.address (i + 1), stack := v.stack ++ bytes, above := [] } := by
  obtain ⟨long, hlong⟩ := c.long hitem
  have hcode := hsite.item hitem hlong
  rw [← hpc] at hcode
  rw [c.address_succ hitem hlong, ← hpc]
  exact h.literal hE (c.resolved hitem) hcode

theorem reserve_item (hsite : site.Carries c) (h : Stands site m v) {size : Nat}
    (hE : site.room < v.stack.length + size → ∀ {stop}, Stop.Exhausted stop → E stop)
    (hitem : c.items[i]? = some (.reserve (some size))) (hpc : v.pc = c.address i) :
    Moves site m E fun v' => ∃ bytes : Bytes, bytes.length = size ∧
      (∀ found beyond, v.above = found ++ beyond → found.length = size → bytes = found) ∧
      v' = { v with pc := c.address (i + 1), stack := v.stack ++ bytes, above := [] } := by
  obtain ⟨long, hlong⟩ := c.long hitem
  obtain ⟨n, hn, hle, hsome⟩ := c.resolved hitem
  have hbyte : (Emit.lowByte (size : Int)).toNat = size := by
    simp only [Emit.lowByte, Number.toNat_toUInt8]
    have hsize : (size : Int) = n := Option.some.inj hsome
    omega
  have hcode := hsite.item hitem hlong
  rw [← hpc] at hcode
  rw [c.address_succ hitem hlong, ← hpc]
  have hmove := @allocate_space site m v E h (Emit.lowByte size) (by rwa [hbyte]) hcode
  rwa [hbyte] at hmove

theorem call_item (hsite : site.Carries c) (h : Stands site m v) {entry : Nat}
    (hE : site.depth ≤ v.returns.length → ∀ {stop}, Stop.Exhausted stop → E stop)
    (hitem : c.items[i]? = some (.call (some entry))) (hpc : v.pc = c.address i) :
    Moves site m E fun v' => v' = { v with
      pc := c.address entry, returns := v.returns ++ [c.address (i + 1)] } := by
  obtain ⟨long, hlong⟩ := c.long hitem
  obtain ⟨place, hplace, hsome⟩ := c.resolved hitem
  obtain rfl : entry = place := Option.some.inj hsome
  have hcode := hsite.item hitem hlong
  rw [← hpc] at hcode
  rw [c.address_succ hitem hlong, ← hpc, ← c.toNat_address hplace]
  exact h.function_call hE hcode

/-- The byte of a distance that fits in one. -/
theorem toNat_distance {n : Nat} (h : n ≤ 255) : n.toUInt8.toNat = n := by
  rw [Number.toNat_toUInt8]
  omega

/-- **A branch goes to the item it points at.** -/
theorem branch_item (hsite : site.Carries c) (h : Stands site m v) {target : Nat}
    (hitem : c.items[i]? = some (.branch false (some target))) (hpc : v.pc = c.address i) :
    Moves site m E fun v' => v' = { v with pc := c.address target } := by
  obtain ⟨long, hlong⟩ := c.long hitem
  have htarget := c.branch_lt hitem
  have hlimit := c.address_lt htarget
  have hhere := c.address_lt (List.getElem?_eq_some_iff.mp hitem).1
  have hcode := hsite.item hitem hlong
  rw [← hpc, c.encode_branch] at hcode
  cases long with
  | true =>
    rw [← c.toNat_address htarget]
    exact h.jump_to hcode
  | false =>
    rcases c.distance hitem hlong with ⟨hlt, hle, hd⟩ | ⟨_, hge, hle, hd⟩
    · have hsum : v.pc + (c.address target - c.address i).toUInt8.toNat = c.address target := by
        rw [toNat_distance hd]
        omega
      rw [← hsum]
      refine h.branch_forward ?_ (by omega)
      simpa only [Bool.false_eq_true, if_false, if_pos hlt] using hcode
    · have hdiff : v.pc - (c.address i - c.address target).toUInt8.toNat = c.address target := by
        rw [toNat_distance hd]
        omega
      have hnot : ¬ i < target := by omega
      rw [← hdiff]
      refine h.branch_backward ?_ (by rw [toNat_distance hd]; omega) (by omega)
      simpa only [Bool.false_eq_true, if_false, if_neg hnot] using hcode

/-- **A conditional branch** goes to the item it points at if the byte on top is zero. -/
theorem branch_if_false_item (hsite : site.Carries c) (h : Stands site m v) {target : Nat}
    {rest : Bytes} {x : UInt8} (hitem : c.items[i]? = some (.branch true (some target)))
    (hpc : v.pc = c.address i) (hstack : v.stack = rest ++ [x]) :
    Moves site m E fun v' => v' = { v with
      pc := if x = 0 then c.address target else c.address (i + 1), stack := rest, above := [] } := by
  obtain ⟨long, hlong⟩ := c.long hitem
  have htarget := c.branch_lt hitem
  have hlimit := c.address_lt htarget
  have hcode := hsite.item hitem hlong
  rw [← hpc, c.encode_branch] at hcode
  rw [c.address_succ hitem hlong, ← hpc]
  cases long with
  | true =>
    rw [← c.toNat_address htarget]
    exact h.jump_if_false hcode hstack
  | false =>
    -- A conditional branch backwards is long, so this one goes forwards.
    rcases c.distance hitem hlong with ⟨hlt, hle, hd⟩ | ⟨hcond, _⟩
    · have hsum : v.pc + (c.address target - c.address i).toUInt8.toNat = c.address target := by
        rw [toNat_distance hd]
        omega
      rw [← hsum]
      refine h.branch_forward_if_false ?_ hstack (by omega)
      simpa only [Bool.false_eq_true, if_false, if_true] using hcode
    · simp at hcond

end Stands

/-! ### Items one behind the other -/

/-- The item is no instruction that loads or stores an element. -/
def Item.Unindexed : Item → Prop
  | .op code _ => code ≠ .loadIndexed ∧ code ≠ .storeIndexed
  | _ => True

/-- From a view on, some items, none of them an indexed instruction, lead to one of the views `P`,
unless one of them stops the machine as in `E`. -/
inductive ItemPath (c : Assembly) (site : Site) (E : Stop → Prop) (P : View → Prop) : View → Prop
  | done {v : View} (hv : P v) : ItemPath c site E P v
  | step {v : View} {i : Nat} {item : Item} {Q : View → Prop} (hitem : c.items[i]? = some item)
    (hplain : item.Unindexed) (hpc : v.pc = c.address i)
    (h : ∀ m, Stands site m v → Moves site m E Q)
    (hrest : ∀ v', Q v' → ItemPath c site E P v') : ItemPath c site E P v

/-- What items lead to, instructions lead to. -/
theorem ItemPath.path {c : Assembly} {site : Site} {E : Stop → Prop} {P : View → Prop} {v : View}
    (h : ItemPath c site E P v) : Path site E P v := by
  induction h with
  | done hv => exact .done hv
  | step _ _ _ h _ ih => exact .step h ih

/-- An opcode with its operands is followed by what lies behind it. -/
theorem ItemPath.op {c : Assembly} {site : Site} {E : Stop → Prop} {P Q : View → Prop} {v : View}
    (hsite : site.Carries c) {i : Nat} {op : Opcode} {operands : Bytes}
    (hitem : c.items[i]? = some (.op op operands)) (hplain : (Item.op op operands).Unindexed)
    (hpc : v.pc = c.address i)
    (h : ∀ m, Stands site m v → Occurs site.low v.pc (op.byte :: operands) → Moves site m E Q)
    (hrest : v.pc + (1 + operands.length) = c.address (i + 1) → ∀ v', Q v' →
      ItemPath c site E P v') : ItemPath c site E P v := by
  obtain ⟨hcode, hnext⟩ := Stands.op_item hsite hitem
  rw [← hpc] at hcode hnext
  exact .step hitem hplain hpc (fun m hm => h m hm hcode) (hrest hnext.symm)

end Terrace
