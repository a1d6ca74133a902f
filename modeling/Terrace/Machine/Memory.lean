/-
# Memory

The machine's memory: 64 KiB, byte by byte. Slices are taken between two
addresses and exist only if these are in order and inside memory; a slice that
does not exist is for the caller to report.

Key definitions: `Memory`, `Memory.get?`, `Memory.slice?`, `Memory.write`,
`Memory.clear`.
-/
import Terrace.Text.Bytes

namespace Terrace

/-- The size of the address space. -/
def memorySize : Nat := 65536

/-- The contents of memory. -/
structure Memory where
  bytes : Vector UInt8 memorySize

namespace Memory

/-- Memory that holds zeros. -/
def zero : Memory := ⟨Vector.replicate memorySize 0⟩

/-- The byte at an address inside memory. -/
def get? (memory : Memory) (address : Int) : Option UInt8 :=
  if address < 0 then none else memory.bytes[address.toNat]?

/-- The `count` bytes from an address on. -/
def read (memory : Memory) (address count : Nat) : Bytes :=
  (List.range count).map fun i => memory.bytes[address + i]?.getD 0

/-- The bytes from `low` up to `high`, when both lie inside memory in this order. -/
def slice? (memory : Memory) (low high : Int) : Option Bytes :=
  if 0 ≤ low ∧ low ≤ high ∧ high ≤ memorySize then
    some (memory.read low.toNat (high - low).toNat)
  else none

/-- Sets the byte at an address; outside memory nothing changes. -/
def set (memory : Memory) (address : Nat) (b : UInt8) : Memory :=
  ⟨memory.bytes.setIfInBounds address b⟩

/-- Writes bytes from an address on; those beyond the end of memory are dropped. -/
def write (memory : Memory) (address : Nat) : Bytes → Memory
  | [] => memory
  | b :: rest => (memory.set address b).write (address + 1) rest

/-- Sets `count` bytes from an address on to zero. -/
def clear (memory : Memory) (address : Nat) : Nat → Memory
  | 0 => memory
  | count + 1 => (memory.set address 0).clear (address + 1) count

end Memory

end Terrace
