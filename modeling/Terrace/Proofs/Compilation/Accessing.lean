/-
# Accesses on firm ground

An access to an element ends with an indexed instruction, which finds on the stack the address that
was put there before the index and the value were evaluated. Where the cell with this address is in
place, it still is that of the bytes the array means, so the instruction works on an element of
these bytes if the index is in bounds, and does anything with the rest of the run if it is not.

A store in bounds changes bytes of variables only; any other store at a computed address has to be
tame for the run to go on.

Key definitions: `Machine.afterStore`.
Key theorems: `Footing.writesElement`, `Footing.storesElement`, `Poised.loads`, `Poised.stores`,
`Poised.storesMemory`.
-/
import Terrace.Proofs.Compilation.Watching

namespace Terrace

open Machine

/-- A part of the bytes that are read. -/
theorem Memory.take_drop_read {memory : Memory} {address size skipped count : Nat}
    (h : skipped + count ≤ size) :
    ((memory.read address size).drop skipped).take count =
      memory.read (address + skipped) count := by
  refine List.ext_getElem? fun k => ?_
  rcases Nat.lt_or_ge k count with hlt | hge
  · have hin : skipped + k < size := by omega
    simp [Memory.read, List.getElem?_take_of_lt hlt, hin, hlt, Nat.add_assoc]
  · have hout : (memory.read (address + skipped) count).length ≤ k := by
      rwa [Memory.length_read]
    rw [List.getElem?_take_eq_none hge, List.getElem?_eq_none hout]

/-- A write changes no bytes but its own. -/
theorem Memory.between_of_write {memory : Memory} {address a : Nat} {bytes : Bytes}
    (h : (memory.write address bytes).get? a ≠ memory.get? a) :
    address ≤ a ∧ a < address + bytes.length := by
  by_contra hout
  refine h ?_
  have hneg : ¬ (a : Int) < 0 := by omega
  rw [Memory.get?, Memory.get?, if_neg hneg, if_neg hneg, Int.toNat_natCast,
    Memory.write_getElem? (by omega)]

namespace Poised

variable {σ : Type} {host : Host σ} {program : Program} {c : Assembly} {bottom top n j i k : Nat}
  {calls : List PendingCall} {cells : Cells} {s : Session σ} {place : Place}

/-- **Below what came after it lies the address of what the array means.** -/
theorem started (h : Poised c bottom calls (cells.with (program.Started bottom calls place top))
    (top + (2 + n)) i s) (hfirm : Firm program bottom calls cells top) :
    ∃ site rest start taken, Footing c bottom calls cells i s.machine site (rest ++ start ++ taken) ∧
      start.length = 2 ∧ taken.length = n ∧ bottom + rest.length = top ∧
      ∀ first size, program.Refers bottom calls place first size →
        start = addressBytes first.toUInt16 := by
  obtain ⟨site, stack, hfooting, htop⟩ := h
  have hfloor := hfirm.floor
  have hglobals := hfirm.rooted.globals_le
  obtain ⟨rest, start, taken, rfl, hrest, hstart⟩ :=
    exists_cut (show top - bottom + 2 ≤ stack.length by omega)
  simp only [List.length_append] at htop
  refine ⟨site, rest, start, taken, hfooting.weaken fun _ _ => Or.inl, hstart, by omega, by omega,
    fun first size hrefers => ?_⟩
  have hoccurs := hfooting.cells top _ (Or.inr ⟨rfl, first, size, hrefers, rfl⟩)
  rw [← hrest] at hoccurs
  exact hoccurs.eq_middle (show (2 : Nat) = _ by omega)

end Poised

/-- The next instruction, where an item is one. -/
theorem Footing.op {site : Site} {c : Assembly} {bottom i : Nat} {calls : List PendingCall}
    {cells : Cells} {m : Machine} {stack : Bytes} {code : Opcode} {operands : Bytes}
    (h : Footing c bottom calls cells i m site stack)
    (hitem : c.items[i]? = some (.op code operands)) :
    m.opcode? = some code ∧ Occurs site.low (c.address i) (code.byte :: operands) ∧
      c.address (i + 1) = c.address i + (1 + operands.length) := by
  obtain ⟨op, hopcode, _, hop⟩ := h.stands.item_opcode h.carries rfl hitem
  obtain rfl := hop _ _ rfl
  exact ⟨hopcode, Stands.op_item h.carries hitem⟩

/-- The operands of the next instruction. -/
theorem Footing.operands {site : Site} {c : Assembly} {bottom i : Nat} {calls : List PendingCall}
    {cells : Cells} {m : Machine} {stack : Bytes} {op first second : UInt8}
    (h : Footing c bottom calls cells i m site stack)
    (hcode : Occurs site.low (c.address i) [op, first, second]) :
    (m.memory.read (m.pc.toNat + 1) 2).map UInt8.toNat = [first.toNat, second.toNat] := by
  have hpc : m.pc.toNat = c.address i := by rw [h.stands.pc, Int.toNat_natCast]
  have hheld : m.memory.Holds (c.address i + 1) [first, second] := by
    intro k b hk
    have hbyte := h.stands.low _ b ((occurs_cons.mp hcode).2 k b hk)
    rwa [Nat.zero_add] at hbyte
  rw [hpc]
  exact congrArg (List.map UInt8.toNat) hheld.read

/-- **Where an element of an array lies**; the bytes of the array lie in memory. -/
theorem Footing.element {site : Site} {c : Assembly} {bottom top i first size : Nat}
    {calls : List PendingCall} {cells : Cells} {m : Machine} {program : Program} {place : Place}
    {stack start : Bytes} (h : Footing c bottom calls cells i m site stack)
    (hfirm : Firm program bottom calls cells top) (htop : top ≤ bottom + stack.length)
    (hplace : place.Within ((program.scene calls).region place.scope))
    (hrefers : program.Refers bottom calls place first size)
    (hstart : start = addressBytes first.toUInt16) (index : Bytes) (n : Nat) :
    elementAt start index n = first + Number.value index * n ∧ first + size ≤ memorySize ∧
      ∀ x, first ≤ x → x < first + size → program.Alterable bottom calls x := by
  obtain ⟨hbelow, halterable⟩ := hfirm.refers_le hplace hrefers
  have hfloor := hfirm.floor
  have hfits := h.stands.fits
  have hlow := h.below
  have hsite := site.stack_lt
  have hmemory : memorySize = 65536 := rfl
  simp only [List.length_nil] at hfits
  have hfirst : first.toUInt16.toNat = first := by
    rw [Nat.toUInt16, UInt16.toNat_ofNat']
    omega
  refine ⟨?_, by omega, halterable⟩
  rw [elementAt, hstart, Stands.value_addressBytes, hfirst]

/-! ### Stores at computed addresses -/

/-- The machine once a value is taken off the stack and stored. -/
def Machine.afterStore (m : Machine) (pc top address : Nat) (value : Bytes) : Machine :=
  { m.moved pc top with memory := m.memory.write address value, steps := m.steps + 1 }

section
variable {σ : Type} {host : Host σ} {program : Program} {c : Assembly} {site : Site}
  {bottom top i pc : Nat} {calls : List PendingCall} {cells : Cells} {s : Session σ}
  {rest start index value : Bytes}

/-- **A store to an element in bounds** sets the bytes of the element and no others. -/
theorem Footing.writesElement {place : Place} {first size : Nat}
    (h : Footing c bottom calls cells i s.machine site (rest ++ start ++ index ++ value))
    (hfirm : Firm program bottom calls cells top) (htop : bottom + rest.length = top)
    (hplace : place.Within ((program.scene calls).region place.scope))
    (hrefers : program.Refers bottom calls place first size)
    (hstart : start = addressBytes first.toUInt16)
    (hturn : (∃ s' how, turn host s = .ended s' how ∧
        Excused (fun _ => memorySize < elementAt start index value.length + value.length) how) ∨
      ∃ s', turn host s = .on s' ∧ s'.machine =
        s.machine.afterStore pc top (elementAt start index value.length) value) :
    WritesElement host s first size value.length index.length := by
  have hheight : top ≤ bottom + (rest ++ start ++ index ++ value).length := by
    simp only [List.length_append]
    omega
  obtain ⟨hwhere, hroom, _⟩ :=
    h.element hfirm hheight hplace hrefers hstart index value.length
  have hbase : s.machine.stackBase = bottom := by rw [h.stands.bottom, h.below]
  refine ⟨rest, index, value, by rw [← hstart, h.stands.stack?], rfl, rfl, fun hin => ?_⟩
  rcases hturn with ⟨s', how, hturn, hhow⟩ | ⟨s', hturn, hafter⟩
  · exact Or.inl ⟨s', how, hturn, hhow.mono fun _ hfull => by omega⟩
  · rw [hwhere] at hafter
    refine Or.inr ⟨s', hturn, ?_, ?_, ?_, ?_, fun a ha => ?_⟩
    · rw [hafter, hbase, ← Int.natCast_add, htop]
      rfl
    · rw [hafter]
      rfl
    · rw [hafter]
      rfl
    · have hread := (@Memory.holds_write value s.machine.memory
        (first + Number.value index * value.length) (by omega)).read
      rw [hafter]
      exact hread
    · by_contra hne
      rw [hafter] at hne
      have hbetween := Memory.between_of_write hne
      omega

/-- **The bytes of an element that is about to be stored are bytes of a variable.** -/
theorem Footing.storesElement {op first second : UInt8}
    (h : Footing c bottom calls cells i s.machine site (rest ++ start ++ index ++ value))
    (hfirm : Firm program bottom calls cells top) (htop : bottom + rest.length = top)
    (hcode : Occurs site.low (c.address i) [op, first, second]) (hvalue : first.toNat = value.length)
    (hindex : second.toNat = index.length) (hstart : start.length = 2)
    (helement : program.StoresElement s.machine calls) {a : Nat}
    (hlow : elementAt start index value.length ≤ a)
    (hhigh : a < elementAt start index value.length + value.length) :
    program.Alterable bottom calls a := by
  have hheight : top ≤ bottom + (rest ++ start ++ index ++ value).length := by
    simp only [List.length_append]
    omega
  obtain ⟨array, base, size, harray, hrefers, rest', index', value', hstack, hoperands, hin⟩ :=
    helement
  rw [h.stands.bottom, h.below, Int.toNat_natCast] at hrefers
  rw [h.stands.stack?, Option.some.injEq] at hstack
  rw [h.operands hcode, hvalue, hindex] at hoperands
  obtain ⟨hvalue', hindex'⟩ : value.length = value'.length ∧ index.length = index'.length := by
    simpa using hoperands
  obtain ⟨hfront, rfl⟩ := List.append_inj' hstack hvalue'
  obtain ⟨hfront', rfl⟩ := List.append_inj' hfront hindex'
  obtain ⟨-, hfirst⟩ := List.append_inj' hfront' hstart
  obtain ⟨hwhere, hroom, halterable⟩ :=
    h.element hfirm hheight harray hrefers hfirst index value.length
  exact halterable a (by omega) (by omega)

end

namespace Poised

variable {σ : Type} {host : Host σ} {program : Program} {c : Assembly} {bottom top n j i k : Nat}
  {calls : List PendingCall} {cells : Cells} {s : Session σ} {place : Place}

/-- **A load of an element** puts the element on the stack if the index is in bounds, else some
bytes of the same size. -/
theorem loads (h : Poised c bottom calls (cells.with (program.Started bottom calls place top))
    (top + (2 + j)) i s) (hfirm : Firm program bottom calls cells top) (hj : j ≤ 2)
    (hplace : place.Within ((program.scene calls).region place.scope))
    (helement : place.slot.elementSize = n) (hsmall : n ≤ 255)
    (hmark : (i, .loads place j) ∈ program.marks calls)
    (hitem : Occurs c.items i (Emit.code (Emit.loadIndexed place.slot.elementSize j))) :
    program.Watches host c (Poised c bottom calls cells (top + n) (i + 1)) k s := by
  have hdescribes := (h.weaken fun _ _ => Or.inl).describes hfirm
  have hbase := h.base
  obtain ⟨site, rest, start, index, hfooting, hstart, hindex, htop, hmeans⟩ := h.started hfirm
  unfold Emit.loadIndexed at hitem
  rw [Emit.code_op, occurs_singleton, helement] at hitem
  obtain ⟨hopcode, hcode, hnext⟩ := hfooting.op hitem
  have helementByte := Emit.toNat_lowByte hsmall
  have hindexByte : (Emit.lowByte j).toNat = index.length := by
    rw [Emit.toNat_lowByte (by omega), hindex]
  have hheight : top ≤ bottom + (rest ++ start ++ index).length := by
    simp only [List.length_append]
    omega
  have hreads : ∀ first size, program.Refers s.machine.stackBase.toNat calls place first size →
      ReadsElement host s first size place.slot.elementSize.toNat j := by
    intro first size hrefers
    rw [hbase, Int.toNat_natCast] at hrefers
    have hfirst := hmeans first size hrefers
    refine ⟨rest, index, by rw [← hfirst, hfooting.stands.stack?], by rw [hindex], fun hin => ?_⟩
    rw [helement, Int.toNat_natCast] at hin ⊢
    obtain ⟨hwhere, hroom, _⟩ := hfooting.element hfirm hheight hplace hrefers hfirst index n
    have hstep : ∀ m, m = { s.machine with steps := s.machine.steps + 1 } →
        Stands site m (viewAt c bottom calls i (rest ++ start ++ index)) →
        Moves site m Stop.Exhausted fun v' => v' = viewAt c bottom calls (i + 1)
          (rest ++ s.machine.memory.read (elementAt start index n) n) := by
      rintro m rfl hs
      refine (hs.load_element (fun _ => id) hcode rfl hstart hindexByte (by omega)
        (by rw [helementByte]; omega)).mono ?_
      rintro v' rfl
      simp only [viewAt, hnext, helementByte]
      rfl
    rcases turn_outcome Stop.Exhausted hfooting.stands hstep with hended | ⟨s', hturn, v', rfl, hs'⟩
    · exact Or.inl hended
    · refine Or.inr ⟨s', hturn, ?_⟩
      rw [hs'.stack?, Memory.take_drop_read hin, hwhere]
  have hG : program.Accesses host c s := by
    refine ⟨fun _ => ⟨calls, i, place, j, hdescribes, hfooting.stands.pc, hmark, hreads⟩, ?_⟩
    rw [hopcode]
    nofun
  refine .moves hG hfooting.stands (fun m hm => hm.load_indexed (E := fun _ => True)
    (fun _ => trivial) hcode rfl hstart hindexByte (by omega) fun _ => trivial) ?_
  rintro k' _ s' _ ⟨value, hvalue, rfl⟩ hs'
  refine .here ⟨site, rest ++ value, ?_, ?_⟩
  · rw [List.append_assoc] at hfooting
    refine hfooting.replaced hfirm htop ?_
    simp only [viewAt, hnext] at hs' ⊢
    exact hs'
  · rw [List.length_append]
    omega

/-- **A store that keeps to variables and vacant bytes** leaves the cells in place. -/
theorem written {s' : Session σ} (h : Poised c bottom calls cells (top + n) i s)
    (hfirm : Firm program bottom calls cells top) {address : Nat} {value : Bytes}
    (hafter : s'.machine = s.machine.afterStore (c.address (i + 1)) top address value)
    (hchanged : ∀ a : Nat, s'.machine.memory.get? a ≠ s.machine.memory.get? a →
      program.Alterable bottom calls a ∨ s'.machine.Vacant c a) :
    Poised c bottom calls cells top (i + 1) s' := by
  refine h.stored hfirm hchanged ?_ ?_ ?_ ?_ ?_
  all_goals
    rw [hafter]
    rfl

/-- **A store into an element** sets the element if the index is in bounds. If it is not, the run
goes on only after a tame store. -/
theorem stores (h : Poised c bottom calls (cells.with (program.Started bottom calls place top))
    (top + (2 + (j + n))) i s) (hfirm : Firm program bottom calls cells top) (hj : j ≤ 2)
    (hplace : place.Within ((program.scene calls).region place.scope))
    (helement : place.slot.elementSize = n) (hsmall : n ≤ 255)
    (hmark : (i, .stores place j) ∈ program.marks calls)
    (hitem : Occurs c.items i (Emit.code (Emit.storeIndexed place.slot.elementSize j))) :
    program.Watches host c (Poised c bottom calls cells top (i + 1)) k s := by
  have hplain := h.weaken fun _ _ => Or.inl
  have hdescribes := hplain.describes hfirm
  have hbase := h.base
  obtain ⟨site, rest, start, taken, hfooting, hstart, htaken, htop, hmeans⟩ := h.started hfirm
  obtain ⟨index, value, rfl, rfl, rfl⟩ := exists_parts htaken
  rw [← List.append_assoc] at hfooting
  unfold Emit.storeIndexed at hitem
  rw [Emit.code_op, occurs_singleton, helement] at hitem
  obtain ⟨hopcode, hcode, hnext⟩ := hfooting.op hitem
  have hvalueByte := Emit.toNat_lowByte hsmall
  have hindexByte := Emit.toNat_lowByte (show index.length ≤ 255 by omega)
  have hlow := hfooting.below
  -- Where the element lies in memory, it is set, and else the machine stops.
  have hstep : ∀ m, m = { s.machine with steps := s.machine.steps + 1 } →
      Stands site m (viewAt c bottom calls i (rest ++ start ++ index ++ value)) →
      Yields Machine.step m (fun _ => memorySize < elementAt start index value.length + value.length)
        fun signal m' => signal = .next ∧ m' = s.machine.afterStore (c.address (i + 1)) top
          (elementAt start index value.length) value := by
    rintro m rfl hs
    refine (hs.store_element hcode rfl hstart hindexByte (by omega) hvalueByte).mono ?_
    rintro signal m' ⟨rfl, _, rfl⟩
    refine ⟨rfl, ?_⟩
    rw [hlow, htop, hnext]
    rfl
  have hwrites : ∀ first size, program.Refers s.machine.stackBase.toNat calls place first size →
      WritesElement host s first size place.slot.elementSize.toNat index.length := by
    intro first size hrefers
    rw [hbase, Int.toNat_natCast] at hrefers
    rw [helement, Int.toNat_natCast]
    exact hfooting.writesElement hfirm htop hplace hrefers (hmeans first size hrefers)
      (turn_outcome _ hfooting.stands hstep)
  have hG : program.Accesses host c s := by
    refine ⟨?_, fun _ =>
      ⟨calls, i, place, index.length, hdescribes, hfooting.stands.pc, hmark, hwrites⟩⟩
    rw [hopcode]
    nofun
  refine .turns hG hfooting.stands hstep ?_
  rintro k' _ s' hturn hafter htame
  refine .here ((hplain.written hfirm hafter) fun a hne => ?_)
  by_cases hstores : program.StoresElement s.machine calls
  · rw [hafter] at hne
    obtain ⟨hge, hlt⟩ := Memory.between_of_write hne
    exact Or.inl
      (hfooting.storesElement hfirm htop hcode hvalueByte hindexByte hstart hstores hge hlt)
  · have hchanged := htame calls hdescribes (Or.inr ⟨hopcode, hstores⟩) s' hturn a hne
    rwa [hbase, Int.toNat_natCast] at hchanged

/-- **A store to memory** may go anywhere, so the run goes on only after a tame one. -/
theorem storesMemory (h : Poised c bottom calls cells (top + (n + 2)) i s)
    (hfirm : Firm program bottom calls cells top) (hsmall : n ≤ 255)
    (hitem : Occurs c.items i (Emit.code (Emit.storeMemory n))) :
    program.Watches host c (Poised c bottom calls cells top (i + 1)) k s := by
  have hdescribes := h.describes hfirm
  have hbase := h.base
  unfold Emit.storeMemory at hitem
  rw [Emit.code_op, occurs_singleton] at hitem
  have hG := h.accesses host program hitem ⟨by simp, by simp⟩
  obtain ⟨site, rest, taken, hfooting, htaken, htop⟩ := h.split hfirm
  obtain ⟨value, start, rfl, rfl, hstart⟩ := exists_parts htaken
  rw [← List.append_assoc] at hfooting
  obtain ⟨hopcode, hcode, hnext⟩ := hfooting.op hitem
  have hlow := hfooting.below
  refine .turns hG hfooting.stands (E := fun _ => memorySize < Number.value start + value.length)
    (Q := fun m' => m' = s.machine.afterStore (c.address (i + 1)) top (Number.value start) value)
    ?_ ?_
  · rintro m rfl hs
    refine (hs.store_memory hcode rfl hstart (Emit.toNat_lowByte hsmall)).mono ?_
    rintro signal m' ⟨rfl, _, rfl⟩
    refine ⟨rfl, ?_⟩
    rw [hlow, htop, hnext]
    rfl
  · rintro k' _ s' hturn hafter htame
    refine .here (h.written hfirm hafter fun a hne => ?_)
    have hchanged := htame calls hdescribes (Or.inl hopcode) s' hturn a hne
    rwa [hbase, Int.toNat_natCast] at hchanged

end Poised

end Terrace
