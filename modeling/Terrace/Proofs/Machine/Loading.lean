/-
# Loading an image

An image is loaded if its end, the room for values and that for return addresses end inside
memory. The end is counted in 64-bit registers, so it is the true one (`Machine.stacksEnd`) only
as long as that is below 2^63 (`Machine.seemsToFit_iff`). Beyond, the counted end comes in again
at the bottom, and images are let in that fit nowhere. What is loaded is in memory byte for byte,
with zeros around it, and a machine that refuses an image is the machine it was.

A run that is computed writes to memory, and each write asks for the size of memory, which is
counted byte by byte. Where the zeros far behind an image are left open, the count does not go
there (`Machine.load_eq_loadUpTo`).

Key definitions: `Machine.stacksEnd`, `Machine.Fits`, `Machine.SeemsToFit`, `Machine.loadUpTo`,
`Machine.loading`, `Machine.Loaded`.
Key theorems: `wrap_le_iff`, `Machine.load_cases`, `Machine.seemsToFit_iff`,
`Machine.Fits.load_eq`, `Machine.fits_iff_of_load`, `Machine.load_eq_loadUpTo`,
`Machine.loading_run`, `Machine.loading_exact`.
-/
import Terrace.Machine.State
import Terrace.Proofs.Machine.Memory

namespace Terrace

/-! ### Memory with an image in it -/

/-- What a write leaves at an address, also where its bytes end beyond memory. -/
theorem Memory.write_bytes : ∀ {bytes : Bytes} {memory : Memory} {address i : Nat},
    i < memorySize → (memory.write address bytes).bytes[i]? =
      if address ≤ i ∧ i < address + bytes.length then bytes[i - address]?
      else memory.bytes[i]?
  | [], memory, address, i, _ => by
    rw [if_neg (by simp only [List.length_nil]; omega)]
    rfl
  | b :: rest, memory, address, i, hi => by
    rw [Memory.write, write_bytes hi, List.length_cons]
    rcases Nat.lt_trichotomy i address with hlt | rfl | hgt
    · rw [if_neg (by omega), if_neg (by omega), set_getElem? (by omega)]
    · rw [if_neg (by omega), if_pos (by omega), Nat.sub_self, List.getElem?_cons_zero, Memory.set,
        Vector.getElem?_setIfInBounds_self_of_lt hi]
    · have hnext : i - address = i - (address + 1) + 1 := by omega
      rw [set_getElem? (by omega), hnext, List.getElem?_cons_succ]
      exact ite_congr (propext (by omega)) (fun _ => rfl) fun _ => rfl

/-- The zeros of an empty memory behind its first `n`. They are what they are, but no computation
comes to see them. -/
noncomputable def Memory.zerosBehind (n : Nat) :
    { zeros : Bytes // zeros = List.replicate (memorySize - n) 0 } :=
  Classical.choice ⟨⟨_, rfl⟩⟩

/-- An empty memory of which only the first `n` bytes can be computed with. -/
noncomputable def Memory.zeroUpTo (n : Nat) (hn : n ≤ memorySize) : Memory where
  bytes := ⟨⟨List.replicate n 0 ++ (Memory.zerosBehind n).val⟩, by
    rw [(Memory.zerosBehind n).property, List.replicate_append_replicate,
      Nat.add_sub_cancel' hn, List.size_toArray, List.length_replicate]⟩

theorem Memory.zero_eq_zeroUpTo (n : Nat) (hn : n ≤ memorySize) :
    Memory.zero = Memory.zeroUpTo n hn := by
  apply Memory.ext_getElem?
  intro i
  simp only [Memory.zero, Memory.zeroUpTo, (Memory.zerosBehind n).property,
    List.replicate_append_replicate, Nat.add_sub_cancel' hn]
  rfl

/-! ### The end of the stacks -/

/-- A number comes out at most as large as a limit in the range of registers exactly if it is
so once some turns through that range are taken off. -/
theorem wrap_le_iff {n limit : Int} (hn : 0 ≤ n) (hlow : 0 ≤ limit)
    (hhigh : limit < 9223372036854775808) :
    wrap n ≤ limit ↔ ∃ turns : Nat, turns * 18446744073709551616 - 9223372036854775808 ≤ n ∧
      n ≤ turns * 18446744073709551616 + limit := by
  have hpow : ((Nat.pow 2 64 : Nat) : Int) = 18446744073709551616 := rfl
  rw [wrap, Int.bmod_def, hpow]
  constructor
  · intro hle
    refine ⟨((n + 9223372036854775808) / 18446744073709551616).toNat, ?_⟩
    split at hle <;> omega
  · rintro ⟨turns, habove, hbelow⟩
    split <;> omega

namespace Machine

/-- The first byte behind the return stack, counted exactly. -/
def stacksEnd (m : Machine) (image : Image) : Int :=
  image.stop + m.config.stackSize + m.config.callDepth * addressSize

/-- The image and both stacks fit into memory, and no stack is empty. -/
structure Fits (m : Machine) (image : Image) : Prop where
  room : 0 < m.config.stackSize
  depth : 0 < m.config.callDepth
  inside : m.stacksEnd image ≤ memorySize

/-- The end of the stacks is inside memory once some turns through the registers are taken off
it. -/
structure SeemsToFit (m : Machine) (image : Image) : Prop where
  room : 0 < m.config.stackSize
  depth : 0 < m.config.callDepth
  inside : ∃ turns : Nat,
    turns * 18446744073709551616 - 9223372036854775808 ≤ m.stacksEnd image ∧
      m.stacksEnd image ≤ turns * 18446744073709551616 + memorySize

variable {m : Machine} {image : Image}

theorem stacksEnd_pos (hroom : 0 < m.config.stackSize) (hdepth : 0 < m.config.callDepth) :
    0 < m.stacksEnd image := by
  have htwo : (addressSize : Int) = 2 := rfl
  rw [stacksEnd, htwo]
  omega

/-- **Below 2^63 the end is counted right.** -/
theorem seemsToFit_iff (h : m.stacksEnd image < 9223372036854775808) :
    m.SeemsToFit image ↔ m.Fits image := by
  constructor
  · rintro ⟨hroom, hdepth, turns, habove, hbelow⟩
    exact ⟨hroom, hdepth, by omega⟩
  · rintro ⟨hroom, hdepth, hinside⟩
    have hpos := @stacksEnd_pos m image hroom hdepth
    exact ⟨hroom, hdepth, 0, by omega, by omega⟩

/-- The machine that has loaded an image. -/
def withImage (m : Machine) (image : Image) : Machine := { m with
  memory := Memory.zero.write image.base.toNat image.code
  stackBase := image.stop
  stackLimit := wrap (image.stop + m.config.stackSize)
  loaded := true }

/-- What loading gives. -/
theorem load_cases (m : Machine) (image : Image) :
    m.SeemsToFit image ∧ m.load image = .ok (m.withImage image) ∨
    ¬ m.SeemsToFit image ∧ m.load image = .error
      (.outOfMemory image.code.length image.base m.config.stackSize m.config.callDepth) := by
  have hsum : wrap (wrap (image.stop + m.config.stackSize) +
      wrap (m.config.callDepth * addressSize)) = wrap (m.stacksEnd image) := by
    rw [wrap_wrap_add, Int.add_comm, wrap_wrap_add, Int.add_comm, stacksEnd]
  unfold load
  dsimp only
  rw [hsum]
  by_cases hstacks : 0 < m.config.stackSize ∧ 0 < m.config.callDepth
  · obtain ⟨hroom, hdepth⟩ := hstacks
    have hcount := @wrap_le_iff (m.stacksEnd image) memorySize
      (Int.le_of_lt (stacksEnd_pos hroom hdepth)) (by decide) (by decide)
    by_cases hinside : wrap (m.stacksEnd image) ≤ memorySize
    · rw [if_neg (by simp; omega)]
      exact .inl ⟨⟨hroom, hdepth, hcount.mp hinside⟩, rfl⟩
    · rw [if_pos (by simp; omega)]
      exact .inr ⟨fun hseems => hinside (hcount.mpr hseems.inside), rfl⟩
  · rw [if_pos (by simp; omega)]
    exact .inr ⟨fun hseems => hstacks ⟨hseems.room, hseems.depth⟩, rfl⟩

/-- Loading into a memory of which only the first `n` bytes can be computed with. -/
noncomputable def loadUpTo (n : Nat) (hn : n ≤ memorySize) (m : Machine) (image : Image) :
    Except Fault Machine :=
  (m.load image).map fun loaded =>
    { loaded with memory := (Memory.zeroUpTo n hn).write image.base.toNat image.code }

/-- Loading gives the same where only the first bytes of memory are in sight. -/
theorem load_eq_loadUpTo (n : Nat) (hn : n ≤ memorySize) (m : Machine) (image : Image) :
    m.load image = m.loadUpTo n hn image := by
  rcases m.load_cases image with ⟨_, hload⟩ | ⟨_, hload⟩
  · rw [loadUpTo, hload, withImage, Memory.zero_eq_zeroUpTo n hn]
    rfl
  · rw [loadUpTo, hload]
    rfl

instance (m : Machine) (image : Image) : Decidable (m.Fits image) :=
  decidable_of_iff
    (0 < m.config.stackSize ∧ 0 < m.config.callDepth ∧ m.stacksEnd image ≤ memorySize)
    ⟨fun ⟨room, depth, inside⟩ => ⟨room, depth, inside⟩, fun h => ⟨h.room, h.depth, h.inside⟩⟩

/-- What fits is loaded. -/
theorem Fits.load_eq (h : m.Fits image) : m.load image = .ok (m.withImage image) := by
  have hend : m.stacksEnd image < 9223372036854775808 := Int.lt_of_le_of_lt h.inside (by decide)
  rcases m.load_cases image with ⟨_, hload⟩ | ⟨hnot, _⟩
  · exact hload
  · exact absurd ((seemsToFit_iff hend).mpr h) hnot

/-- **Stacks that are let in fit if they are no larger than memory**: larger ones are let in only
where the end of the stacks wraps. -/
theorem fits_iff_of_load {loaded : Machine} (hload : m.load image = .ok loaded)
    (hstop : image.stop < 4611686018427387904) :
    m.Fits image ↔ m.config.stackSize ≤ 65536 ∧ m.config.callDepth ≤ 65536 := by
  have htwo : (addressSize : Int) = 2 := rfl
  have hsize : (memorySize : Int) = 65536 := rfl
  constructor
  · rintro ⟨hroom, hdepth, hinside⟩
    rw [stacksEnd, htwo, hsize] at hinside
    omega
  · rintro ⟨hstack, hdepth⟩
    have hend : m.stacksEnd image < 9223372036854775808 := by
      rw [stacksEnd, htwo]
      omega
    rcases m.load_cases image with ⟨hseems, _⟩ | ⟨_, hrefused⟩
    · exact (seemsToFit_iff hend).mp hseems
    · rw [hrefused] at hload
      cases hload

/-! ### Loading in place -/

/-- Loading on the machine itself, in the order in which it is changed. -/
def loading (image : Image) : EStateM Fault Machine Unit := do
  let m ← get
  let limit := wrap (image.stop + m.config.stackSize)
  let top := wrap (limit + wrap (m.config.callDepth * addressSize))
  if m.config.stackSize ≤ 0 || m.config.callDepth ≤ 0 || (memorySize : Int) < top then
    throw (.outOfMemory image.code.length image.base m.config.stackSize m.config.callDepth)
  modify fun m => { m with memory := Memory.zero }
  modify fun m => { m with memory := m.memory.write image.base.toNat image.code }
  modify fun m => { m with stackBase := image.stop }
  modify fun m => { m with stackLimit := limit }
  modify fun m => { m with loaded := true }

/-- In place, loading gives the same machine, or keeps the one there was. -/
theorem loading_run (m : Machine) (image : Image) :
    (loading image).run m = match m.load image with
      | .ok loaded => .ok () loaded
      | .error fault => .error fault m := by
  unfold loading load
  simp only [EStateM.run_bind, EStateM.run_get]
  split
  · rfl
  · rfl

/-- The image is in memory, with zeros around it, and the stacks lie behind it. -/
structure Loaded (m : Machine) (image : Image) (loaded : Machine) : Prop where
  ready : loaded.loaded = true
  config : loaded.config = m.config
  memory : ∀ i < memorySize, loaded.memory.bytes[i]? =
    some (if image.base.toNat ≤ i then image.code.getD (i - image.base.toNat) 0 else 0)
  stackBase : loaded.stackBase = image.stop
  /-- Both stacks lie inside memory, if they fit. -/
  inside : m.Fits image → loaded.stackLimit = loaded.stackBase + m.config.stackSize ∧
    loaded.returnLimit = loaded.stackLimit + m.config.callDepth * addressSize ∧
    loaded.returnLimit ≤ memorySize

theorem loaded_withImage (m : Machine) (image : Image) : m.Loaded image (m.withImage image) where
  ready := rfl
  config := rfl
  memory i hi := by
    have hzero : Memory.zero.bytes[i]? = some 0 := by
      rw [Memory.zero, Vector.getElem?_replicate, if_pos hi]
    change (Memory.zero.write image.base.toNat image.code).bytes[i]? = _
    rw [Memory.write_bytes hi, hzero, List.getD_eq_getElem?_getD]
    by_cases hbase : image.base.toNat ≤ i
    · rw [if_pos hbase]
      by_cases hstop : i < image.base.toNat + image.code.length
      · rw [if_pos ⟨hbase, hstop⟩, List.getElem?_eq_getElem (by omega), Option.getD_some]
      · rw [if_neg (by omega), List.getElem?_eq_none (by omega), Option.getD_none]
    · rw [if_neg (by omega), if_neg hbase]
  stackBase := rfl
  inside := by
    rintro ⟨hroom, hdepth, hinside⟩
    have htwo : (addressSize : Int) = 2 := rfl
    have hsize : (memorySize : Int) = 65536 := rfl
    rw [stacksEnd, htwo, hsize] at hinside
    have hlimit : wrap (image.stop + m.config.stackSize) = image.stop + m.config.stackSize :=
      wrap_eq_self (by omega) (by omega)
    have hcalls : wrap (m.config.callDepth * 2) = m.config.callDepth * 2 :=
      wrap_eq_self (by omega) (by omega)
    have hreturn : (m.withImage image).returnLimit =
        image.stop + m.config.stackSize + m.config.callDepth * 2 := by
      change wrap (wrap (image.stop + m.config.stackSize) + wrap (m.config.callDepth * 2)) = _
      rw [hlimit, hcalls, wrap_eq_self (by omega) (by omega)]
    refine ⟨hlimit, ?_, ?_⟩
    · rw [hreturn, htwo]
      exact congrArg (· + m.config.callDepth * 2) hlimit.symm
    · rw [hreturn, hsize]
      exact hinside

/-- **What is let in.** Loading succeeds exactly if the layout seems to fit, which below 2^63
means that it does; then the image is in memory with zeros around it, and stacks that fit lie
behind it. Otherwise the machine reports that the layout does not fit and stays as it is. -/
theorem loading_exact (m : Machine) (image : Image) :
    ((m.SeemsToFit image ∧ ∃ loaded, (loading image).run m = .ok () loaded ∧
        m.Loaded image loaded) ∨
      (¬ m.SeemsToFit image ∧ (loading image).run m = .error
        (.outOfMemory image.code.length image.base m.config.stackSize m.config.callDepth) m)) ∧
    (m.stacksEnd image < 9223372036854775808 → (m.SeemsToFit image ↔ m.Fits image)) := by
  refine ⟨?_, seemsToFit_iff⟩
  rw [loading_run]
  rcases m.load_cases image with ⟨hseems, hload⟩ | ⟨hnot, hload⟩
  · rw [hload]
    exact .inl ⟨hseems, _, rfl, loaded_withImage m image⟩
  · rw [hload]
    exact .inr ⟨hnot, rfl⟩

/-- A machine with a value stack of 2^63 - 1 bytes and room for one return address. -/
def boundless : Machine := { config := { stackSize := 9223372036854775807, callDepth := 1 } }

/-- It loads an image of one byte, which fits nowhere. -/
theorem boundless_loads :
    ¬ boundless.Fits ⟨[0], 0, 0⟩ ∧ ∃ loaded, (loading ⟨[0], 0, 0⟩).run boundless = .ok () loaded := by
  refine ⟨fun hfits => absurd hfits.inside (by decide), ?_⟩
  exact ⟨_, rfl⟩

end Machine

end Terrace
