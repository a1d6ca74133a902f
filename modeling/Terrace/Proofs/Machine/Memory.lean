/-
# Bytes in memory

`Holds memory address bytes` says that these bytes lie in memory from an address on.
What is held can be cut and put together, read as a slice, and written; a write
leaves alone what lies before and behind it.

Key definitions: `Memory.Holds`.
Key theorems: `Memory.Holds.slice?`, `Memory.holds_write`, `Memory.Holds.write`.
-/
import Mathlib.Tactic.Common
import Terrace.Machine.Memory

namespace Terrace.Memory

/-- The bytes lie in memory from `address` on. -/
def Holds (memory : Memory) (address : Nat) (bytes : Bytes) : Prop :=
  ∀ (i : Nat) (b : UInt8), bytes[i]? = some b → memory.bytes[address + i]? = some b

variable {memory : Memory} {address : Nat} {bytes : Bytes}

theorem holds_nil : memory.Holds address [] := by
  intro i b h
  simp at h

theorem holds_append {first second : Bytes} :
    memory.Holds address (first ++ second) ↔
      memory.Holds address first ∧ memory.Holds (address + first.length) second := by
  constructor
  · intro h
    refine ⟨fun i b hi => h i b ?_, fun i b hi => ?_⟩
    · obtain ⟨hlt, _⟩ := List.getElem?_eq_some_iff.mp hi
      rw [List.getElem?_append_left hlt, hi]
    · have hat := h (first.length + i) b
        (by rw [List.getElem?_append_right (by omega), Nat.add_sub_cancel_left, hi])
      rwa [← Nat.add_assoc] at hat
  · rintro ⟨hfirst, hsecond⟩ i b hi
    rcases Nat.lt_or_ge i first.length with hlt | hge
    · exact hfirst i b (by rwa [List.getElem?_append_left hlt] at hi)
    · rw [List.getElem?_append_right hge] at hi
      have hat := hsecond _ _ hi
      rwa [Nat.add_assoc, Nat.add_sub_cancel' hge] at hat

theorem Holds.get? (h : memory.Holds address bytes) {i : Nat} {b : UInt8}
    (hi : bytes[i]? = some b) : memory.get? ((address + i : Nat) : Int) = some b := by
  have hneg : ¬ ((address + i : Nat) : Int) < 0 := by omega
  rw [Memory.get?, if_neg hneg, Int.toNat_natCast]
  exact h i b hi

theorem Holds.read (h : memory.Holds address bytes) :
    memory.read address bytes.length = bytes := by
  apply List.ext_getElem?
  intro i
  rcases Nat.lt_or_ge i bytes.length with hlt | hge
  · have hi := h i _ (List.getElem?_eq_getElem hlt)
    simp [Memory.read, List.getElem?_range hlt, hi, List.getElem?_eq_getElem hlt]
  · simp [Memory.read, hge]

/-- A slice that was found holds what it gave. -/
theorem holds_read {count : Nat} (h : address + count ≤ memorySize) :
    memory.Holds address (memory.read address count) := by
  intro i b hi
  obtain ⟨hlt, _⟩ := List.getElem?_eq_some_iff.mp hi
  have hcount : i < count := by simpa [Memory.read] using hlt
  have hin : address + i < memorySize := by omega
  simp only [Memory.read, List.getElem?_map, List.getElem?_range hcount, Option.map_some,
    Option.some.injEq, Vector.getElem?_eq_getElem hin, Option.getD_some] at hi
  rw [Vector.getElem?_eq_getElem hin, hi]

@[simp] theorem length_read {count : Nat} : (memory.read address count).length = count := by
  simp [Memory.read]

/-- **A slice of bytes that lie in memory gives them.** -/
theorem Holds.slice? (h : memory.Holds address bytes)
    (hin : address + bytes.length ≤ memorySize) {low high : Int} (hlow : low = address)
    (hhigh : high = address + bytes.length) : memory.slice? low high = some bytes := by
  subst hlow
  subst hhigh
  have hcond : 0 ≤ (address : Int) ∧ (address : Int) ≤ address + bytes.length ∧
      (address : Int) + bytes.length ≤ memorySize := by omega
  have hcount : ((address : Int) + bytes.length - address).toNat = bytes.length := by omega
  rw [Memory.slice?, if_pos hcond, hcount, Int.toNat_natCast, h.read]

/-! ### Writes -/

theorem set_getElem? {b : UInt8} {i : Nat} (hne : i ≠ address) :
    (memory.set address b).bytes[i]? = memory.bytes[i]? := by
  rw [Memory.set, Vector.getElem?_setIfInBounds_ne (Ne.symm hne)]

/-- A write changes nothing before its address and nothing behind its bytes. -/
theorem write_getElem? : ∀ {bytes : Bytes} {memory : Memory} {address i : Nat},
    i < address ∨ address + bytes.length ≤ i →
    (memory.write address bytes).bytes[i]? = memory.bytes[i]?
  | [], _, _, _, _ => rfl
  | b :: rest, memory, address, i, h => by
    have hout : i < address + 1 ∨ address + 1 + rest.length ≤ i := by
      rw [List.length_cons] at h
      omega
    have hne : i ≠ address := by
      rw [List.length_cons] at h
      omega
    rw [Memory.write, write_getElem? hout, set_getElem? hne]

/-- **What was written is held.** -/
theorem holds_write : ∀ {bytes : Bytes} {memory : Memory} {address : Nat},
    address + bytes.length ≤ memorySize → (memory.write address bytes).Holds address bytes
  | [], _, _, _ => holds_nil
  | b :: rest, memory, address, h => by
    rw [List.length_cons] at h
    have hrest := @holds_write rest (memory.set address b) (address + 1) (by omega)
    intro i c hi
    rw [Memory.write]
    cases i with
    | zero =>
      have hin : address < memorySize := by omega
      rw [List.getElem?_cons_zero] at hi
      rw [Nat.add_zero address, write_getElem? (Or.inl (Nat.lt_add_one address)), Memory.set,
        Vector.getElem?_setIfInBounds_self_of_lt hin, hi]
    | succ i =>
      rw [List.getElem?_cons_succ] at hi
      have hat := hrest i c hi
      rwa [Nat.add_assoc, Nat.add_comm 1 i] at hat

/-- **A write leaves alone what lies apart from it.** -/
theorem Holds.write {bytes : Bytes} (h : memory.Holds address bytes) {at' : Nat} {written : Bytes}
    (hapart : address + bytes.length ≤ at' ∨ at' + written.length ≤ address) :
    (memory.write at' written).Holds address bytes := by
  intro i b hi
  obtain ⟨hlt, _⟩ := List.getElem?_eq_some_iff.mp hi
  rw [write_getElem? (by omega)]
  exact h i b hi

theorem clear_eq_write : ∀ (count : Nat) (memory : Memory) (address : Nat),
    memory.clear address count = memory.write address (List.replicate count 0)
  | 0, _, _ => rfl
  | count + 1, memory, address => by
    rw [Memory.clear, clear_eq_write count, List.replicate_succ, Memory.write]

/-- Clearing sets the bytes it is given to zero, and no others. -/
theorem clear_getElem? {count : Nat} (hin : address + count ≤ memorySize) (i : Nat) :
    (memory.clear address count).bytes[i]? =
      if address ≤ i ∧ i < address + count then some 0 else memory.bytes[i]? := by
  have hlength : (List.replicate count (0 : UInt8)).length = count := List.length_replicate
  rw [clear_eq_write]
  by_cases hi : address ≤ i ∧ i < address + count
  · have hheld := @holds_write (List.replicate count 0) memory address (by rw [hlength]; exact hin)
    have hbyte := hheld (i - address) 0 (by rw [List.getElem?_replicate_of_lt (by omega)])
    rw [if_pos hi, ← hbyte, Nat.add_sub_cancel' hi.1]
  · rw [if_neg hi, write_getElem? (by rw [hlength]; omega)]

/-- Memory is determined by its bytes. -/
theorem ext_getElem? {first second : Memory}
    (h : ∀ i : Nat, first.bytes[i]? = second.bytes[i]?) : first = second := by
  have hbytes : first.bytes = second.bytes := by
    apply Vector.ext
    intro i hi
    have hat := h i
    rw [Vector.getElem?_eq_getElem hi, Vector.getElem?_eq_getElem hi] at hat
    exact Option.some.inj hat
  cases first
  cases second
  exact congrArg Memory.mk hbytes

/-- What is cleared stays as it is when it is cleared again. -/
theorem clear_clear {count : Nat} (hin : address + count ≤ memorySize) :
    (memory.clear address count).clear address count = memory.clear address count := by
  apply ext_getElem?
  intro i
  rw [clear_getElem? hin, clear_getElem? hin]
  split_ifs
  · rfl
  · rfl

end Terrace.Memory
