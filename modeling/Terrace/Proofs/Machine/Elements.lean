/-
# Elements in memory

The instructions that work on memory at an address they find on the stack, byte by byte. An
indexed instruction works on the element whose place is the start of an array plus the index
times the size of an element; both are numbers of at most two bytes, so no sum wraps. A load
pushes the bytes of the element and a store sets exactly these, if they lie in memory.

Key definitions: `elementAt`.
Key theorems: `Stands.load_element`, `Stands.store_element`, `Stands.store_memory`.
-/
import Terrace.Proofs.Machine.Crash

namespace Terrace

open Machine

/-- The address of an element. -/
def elementAt (start index : Bytes) (size : Nat) : Nat :=
  Number.value start + Number.value index * size

/-- The sums of an indexed instruction do not wrap. -/
theorem wrap_elementAt {start index : Bytes} {size : Nat} (hstart : start.length ≤ 2)
    (hindex : index.length ≤ 2) (hsize : size < 256) :
    wrap (wrap (Number.value (start.take 8)) + wrap (Number.value (index.take 8)) * size) =
        elementAt start index size ∧ elementAt start index size < 65536 * 257 := by
  obtain ⟨hs, hslt⟩ := Stands.wrap_value hstart
  obtain ⟨hi, hilt⟩ := Stands.wrap_value hindex
  have hprod : Number.value index * size ≤ 65536 * 256 := Nat.mul_le_mul (by omega) (by omega)
  have hlt : elementAt start index size < 65536 * 257 := by
    rw [elementAt]
    omega
  have hcast : (Number.value start : Int) + Number.value index * (size : Int) =
      (elementAt start index size : Nat) := by
    rw [elementAt, Int.natCast_add, Int.natCast_mul]
  rw [hs, hi, hcast]
  exact ⟨wrap_eq_self (by omega) (by omega), hlt⟩

namespace Machine

/-- The machine at another place of the code, with its stack cut elsewhere. -/
def moved (m : Machine) (pc sp : Int) : Machine := { m with pc, sp }

variable {α : Type} {m m' : Machine} {E : Stop → Prop} {here : Int}

@[simp] theorem moved_memory (m : Machine) (pc sp : Int) : (m.moved pc sp).memory = m.memory := rfl

@[simp] theorem moved_pc (m : Machine) (pc sp : Int) : (m.moved pc sp).pc = pc := rfl

@[simp] theorem moved_sp (m : Machine) (pc sp : Int) : (m.moved pc sp).sp = sp := rfl

@[simp] theorem moved_moved (m : Machine) (pc sp pc' sp' : Int) :
    (m.moved pc sp).moved pc' sp' = m.moved pc' sp' := rfl

/-- What is computed is what is yielded. -/
theorem Yields.of_run {x : Exec α} {a : α} {Q : α → Machine → Prop} (h : x.run m = .ok a m')
    (hQ : Q a m') : Yields x m E Q := by
  rw [yields_iff, h]
  exact hQ

/-- Bytes are written where they all lie in memory, else the machine stops. -/
theorem yields_write {address : Nat} {bytes : Bytes} (hsmall : bytes.length < 256)
    (haddress : address < 65536 * 257) :
    Yields (write here address bytes) m (fun _ => memorySize < address + bytes.length)
      fun _ m' => address + bytes.length ≤ memorySize ∧
        m' = { m with memory := m.memory.write address bytes } := by
  unfold write
  rw [yields_bind]
  have hwrap : wrap ((address : Int) + bytes.length) = address + bytes.length :=
    wrap_eq_self (by omega) (by omega)
  by_cases hin : address + bytes.length ≤ memorySize
  · refine Stands.yields_read (by omega)
      ((@Memory.holds_read m.memory address bytes.length hin).slice? ?_ rfl ?_) ?_
    · rw [Memory.length_read]
      exact hin
    · rw [Memory.length_read]
    · unfold store
      rw [yields_modify]
      exact ⟨hin, rfl⟩
  · have hout : ((address : Int) < 0 ||
        (memorySize : Int) < wrap ((address : Int) + bytes.length)) = true := by
      rw [hwrap, Bool.or_eq_true, decide_eq_true_eq, decide_eq_true_eq]
      omega
    unfold read
    rw [if_pos hout, yields_fail]
    omega

end Machine

namespace Stands

variable {α : Type} {site : Site} {m : Machine} {v : View} {rest taken : Bytes} {here : Int}
  {E : Stop → Prop} {Q : α → Machine → Prop}

/-- Fetching the next byte of the code only moves the program counter. -/
theorem yields_fetchNat (h : Stands site m v) {b : UInt8} (hb : site.low[v.pc]? = some b)
    {f : Nat → Exec α}
    (hf : ∀ m', m' = m.moved (v.pc + 1 : Nat) m.sp → Stands site m' { v with pc := v.pc + 1 } →
      Yields (f b.toNat) m' E Q) : Yields (Machine.fetchNat here >>= f) m E Q := by
  have hget := h.low.get? hb
  rw [Nat.zero_add, ← h.pc] at hget
  rw [yields_bind]
  refine Yields.of_run (run_fetchNat hget) ?_
  rw [h.pc]
  exact hf _ rfl (h.at_pc (v.pc + 1))

/-- Popping bytes only moves the stack pointer. -/
theorem yields_pop (h : Stands site m v) (hstack : v.stack = rest ++ taken) {count : Nat}
    (hcount : count = taken.length) {f : Bytes → Exec α}
    (hf : ∀ m', m' = m.moved m.pc (site.low.length + rest.length : Nat) →
      Stands site m' { v with stack := rest, above := taken ++ v.above } →
      Yields (f taken) m' E Q) : Yields (Machine.pop here count >>= f) m E Q := by
  obtain ⟨hnot, hslice⟩ := h.slice_top hstack hcount
  have hlength := congrArg List.length hstack
  have hfits := h.fits
  have hsp := h.sp
  have hheld := h.stack
  rw [List.length_append] at hlength
  rw [hstack, List.append_assoc] at hheld
  have hplace : m.sp - count = (site.low.length + rest.length : Nat) := by omega
  unfold Machine.pop
  rw [yields_bind, yields_bind, yields_get, if_neg hnot, yields_bind, yields_modify,
    ← bind_pure (Machine.slice _ _)]
  refine yields_slice hslice ?_
  rw [yields_pure, hplace]
  refine hf _ rfl ⟨h.bottom, h.limit, h.depth, h.pc, rfl, h.fp, h.fp_lt, h.rsp, h.low, hheld, ?_,
    h.returns, h.returns_le⟩
  simp only [List.length_append]
  omega

/-- Popping a number only moves the stack pointer. -/
theorem yields_popNumber (h : Stands site m v) (hstack : v.stack = rest ++ taken) {count : Nat}
    (hcount : count = taken.length) {f : Int → Exec α}
    (hf : ∀ m', m' = m.moved m.pc (site.low.length + rest.length : Nat) →
      Stands site m' { v with stack := rest, above := taken ++ v.above } →
      Yields (f (wrap (Number.value (taken.take 8)))) m' E Q) :
    Yields (Machine.popNumber here count >>= f) m E Q := by
  unfold Machine.popNumber
  rw [bind_assoc]
  refine h.yields_pop hstack hcount fun m' hm' h' => ?_
  rw [pure_bind]
  exact hf m' hm' h'

/-- An instruction that is no system call does what `perform` does behind its opcode. -/
theorem yields_step (h : Stands site m v) {op : Opcode} (hop : site.low[v.pc]? = some op.byte)
    (hhalt : op ≠ .halt) (hcall : op ≠ .systemCall) {P : Machine → Prop}
    (hperform : ∀ m', m' = m.moved (v.pc + 1 : Nat) m.sp →
      Stands site m' { v with pc := v.pc + 1 } →
      Yields (perform v.pc op) m' E fun _ m'' => P m'') :
    Yields Machine.step m E fun signal m' => signal = .next ∧ P m' := by
  have hget := h.low.get? hop
  rw [Nat.zero_add, ← h.pc] at hget
  unfold Machine.step
  rw [yields_bind, yields_get, yields_bind]
  refine Yields.of_run (run_fetch hget) ?_
  rw [Opcode.ofByte?_byte, h.pc]
  dsimp only
  rw [execute_eq hhalt hcall]
  refine (hperform _ rfl (h.at_pc (v.pc + 1))).bind fun _ m' hm' => ?_
  rw [yields_pure]
  exact ⟨rfl, hm'⟩

/-! ### Elements -/

section
variable {start index value : Bytes} {element indexSize : UInt8}

/-- **A load pushes the bytes of the element**, if they lie in memory. -/
theorem load_element (h : Stands site m v)
    (hE : site.room < rest.length + element.toNat → ∀ {stop}, Stop.Exhausted stop → E stop)
    (hcode : Occurs site.low v.pc [Opcode.loadIndexed.byte, element, indexSize])
    (hstack : v.stack = rest ++ start ++ index) (hstart : start.length = 2)
    (hindex : indexSize.toNat = index.length) (hshort : index.length ≤ 2)
    (hin : elementAt start index element.toNat + element.toNat ≤ memorySize) :
    Moves site m E fun v' => v' = { v with
      pc := v.pc + 3
      stack := rest ++ m.memory.read (elementAt start index element.toNat) element.toNat
      above := [] } := by
  obtain ⟨hop, hoperands⟩ := occurs_cons.mp hcode
  obtain ⟨helement, hmore⟩ := occurs_cons.mp hoperands
  obtain ⟨hwrap, _⟩ := wrap_elementAt (Nat.le_of_eq hstart) hshort element.toNat_lt
  have hread := @Memory.holds_read m.memory _ _ hin
  refine h.yields_step hop (by decide) (by decide) fun m₁ hm₁ h₁ => ?_
  unfold perform
  refine h₁.yields_fetchNat helement fun m₂ hm₂ h₂ => ?_
  refine h₂.yields_fetchNat (occurs_cons.mp hmore).1 fun m₃ hm₃ h₃ => ?_
  refine h₃.yields_popNumber hstack hindex fun m₄ hm₄ h₄ => ?_
  refine h₄.yields_popNumber rfl hstart.symm fun m₅ hm₅ h₅ => ?_
  have hmemory : m₅.memory = m.memory := by
    simp only [hm₅, hm₄, hm₃, hm₂, hm₁, moved_memory]
  rw [← hmemory] at hread ⊢
  rw [hwrap]
  refine Yields.bind (P := fun bytes m' =>
    bytes = m₅.memory.read (elementAt start index element.toNat) element.toNat ∧ m' = m₅)
    (yields_read (by omega) (hread.slice? ?_ rfl ?_) ⟨rfl, rfl⟩) ?_
  · rw [Memory.length_read]
    exact hin
  · rw [Memory.length_read]
  · rintro bytes _ ⟨rfl, rfl⟩
    refine (h₅.push fun hfull => hE ?_).mono fun _ m₇ h₇ => ⟨_, rfl, h₇⟩
    rwa [Memory.length_read] at hfull

/-- **A store sets the bytes of the element and nothing else**, if they lie in memory. -/
theorem store_element (h : Stands site m v)
    (hcode : Occurs site.low v.pc [Opcode.storeIndexed.byte, element, indexSize])
    (hstack : v.stack = rest ++ start ++ index ++ value) (hstart : start.length = 2)
    (hindex : indexSize.toNat = index.length) (hshort : index.length ≤ 2)
    (hvalue : element.toNat = value.length) :
    Yields Machine.step m
      (fun _ => memorySize < elementAt start index value.length + value.length)
      fun signal m' => signal = .next ∧
        elementAt start index value.length + value.length ≤ memorySize ∧
        m' = { m.moved (v.pc + 3 : Nat) (site.low.length + rest.length : Nat) with
          memory := m.memory.write (elementAt start index value.length) value } := by
  obtain ⟨hop, hoperands⟩ := occurs_cons.mp hcode
  obtain ⟨helement, hmore⟩ := occurs_cons.mp hoperands
  have hsmall := element.toNat_lt
  obtain ⟨hwrap, hlt⟩ := wrap_elementAt (Nat.le_of_eq hstart) hshort hsmall
  rw [hvalue] at hwrap hlt hsmall
  refine h.yields_step hop (by decide) (by decide) fun m₁ hm₁ h₁ => ?_
  unfold perform
  refine h₁.yields_fetchNat helement fun m₂ hm₂ h₂ => ?_
  refine h₂.yields_fetchNat (occurs_cons.mp hmore).1 fun m₃ hm₃ h₃ => ?_
  refine h₃.yields_pop hstack hvalue fun m₄ hm₄ h₄ => ?_
  refine h₄.yields_popNumber rfl hindex fun m₅ hm₅ h₅ => ?_
  refine h₅.yields_popNumber rfl hstart.symm fun m₆ hm₆ h₆ => ?_
  rw [hvalue, hwrap]
  have hmoved : m₆ = m.moved (v.pc + 3 : Nat) (site.low.length + rest.length : Nat) := by
    simp only [hm₆, hm₅, hm₄, hm₃, hm₂, hm₁, moved_moved, moved_pc]
  refine (yields_write hsmall hlt).mono fun _ m' hwritten => ?_
  rw [hmoved] at hwritten
  exact hwritten

/-- A store to memory sets the bytes there and nothing else, if they lie in memory. -/
theorem store_memory (h : Stands site m v)
    (hcode : Occurs site.low v.pc [Opcode.storeMemory.byte, element])
    (hstack : v.stack = rest ++ value ++ start) (hstart : start.length = 2)
    (hvalue : element.toNat = value.length) :
    Yields Machine.step m (fun _ => memorySize < Number.value start + value.length)
      fun signal m' => signal = .next ∧ Number.value start + value.length ≤ memorySize ∧
        m' = { m.moved (v.pc + 2 : Nat) (site.low.length + rest.length : Nat) with
          memory := m.memory.write (Number.value start) value } := by
  obtain ⟨hop, hoperands⟩ := occurs_cons.mp hcode
  have hsmall := element.toNat_lt
  obtain ⟨hwrap, hlt⟩ := wrap_value (Nat.le_of_eq hstart)
  rw [hvalue] at hsmall
  refine h.yields_step hop (by decide) (by decide) fun m₁ hm₁ h₁ => ?_
  unfold perform
  refine h₁.yields_fetchNat (occurs_cons.mp hoperands).1 fun m₂ hm₂ h₂ => ?_
  refine h₂.yields_popNumber hstack hstart.symm fun m₃ hm₃ h₃ => ?_
  refine h₃.yields_pop rfl hvalue fun m₄ hm₄ h₄ => ?_
  rw [hwrap]
  have hmoved : m₄ = m.moved (v.pc + 2 : Nat) (site.low.length + rest.length : Nat) := by
    simp only [hm₄, hm₃, hm₂, hm₁, moved_moved, moved_pc]
  refine (yields_write hsmall (by omega)).mono fun _ m' hwritten => ?_
  rw [hmoved] at hwritten
  exact hwritten

end

end Stands

end Terrace
