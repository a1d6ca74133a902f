/-
# What an instruction may touch

An instruction is executed on a machine whose registers are in place (`InPlace`), whatever
its bytes are. `Confined S o C x m Q` says what some work does there: wherever it stops, the
machine is in place again, has the bounds of `o` and differs from it in memory only at the
addresses `S`; its value and machine are as in `Q`; and it crashes only if `C`. One such
statement for every piece of work an instruction is made of gives one for every instruction
(`confined_step`): it touches the addresses `touched` only, and crashes only if it is an indexed
instruction whose element ends beyond the last address that a 64-bit register can hold
(`Overreaches`).

Key definitions: `Machine.InPlace`, `Machine.Left`, `Machine.Confined`, `Machine.touched`,
`Machine.Overreaches`.
Key theorems: `Machine.confined_step`.
-/
import Terrace.Proofs.Machine.Sound

namespace Terrace

namespace Machine

/-- The registers are in place, the program counter inside memory or right behind it. -/
structure InPlace (m : Machine) : Prop extends Sound m where
  pc_le : m.pc ≤ memorySize

/-- The addresses of the room for values. -/
def OnStack (m : Machine) (address : Nat) : Prop :=
  m.stackBase ≤ address ∧ (address : Int) < m.stackLimit

/-- The addresses of the two bytes behind the last return address, if there is room for them. -/
def NextReturn (m : Machine) (address : Nat) : Prop :=
  m.rsp < m.config.callDepth ∧ ((address : Int) = m.stackLimit + 2 * m.rsp ∨
    (address : Int) = m.stackLimit + 2 * m.rsp + 1)

/-- What work on `o` leaves behind that may touch the addresses `S` of memory. -/
structure Left (S : Nat → Prop) (o m : Machine) : Prop where
  inPlace : m.InPlace
  bounds : m.bounds = o.bounds
  loaded : m.loaded = o.loaded
  spared : ∀ i, ¬ S i → m.memory.bytes[i]? = o.memory.bytes[i]?

section Left

variable {S : Nat → Prop} {o m : Machine}

theorem Left.config (h : Left S o m) : m.config = o.config := congrArg Prod.fst h.bounds

theorem Left.stackBase (h : Left S o m) : m.stackBase = o.stackBase :=
  congrArg (fun b => b.2.1) h.bounds

theorem Left.stackLimit (h : Left S o m) : m.stackLimit = o.stackLimit :=
  congrArg (fun b => b.2.2) h.bounds

theorem InPlace.left (h : m.InPlace) : Left S m m := ⟨h, rfl, rfl, fun _ _ => rfl⟩

theorem InPlace.at_steps (h : m.InPlace) (steps : Nat) : InPlace { m with steps } :=
  ⟨⟨h.bottom, h.low, h.high, h.room, h.depth, h.rsp, h.fp, h.pc⟩, h.pc_le⟩

theorem Left.at_pc (h : Left S o m) {pc : Int} (hlow : 0 ≤ pc) (hhigh : pc ≤ memorySize) :
    Left S o { m with pc } :=
  have hm := h.inPlace
  ⟨⟨⟨hm.bottom, hm.low, hm.high, hm.room, hm.depth, hm.rsp, hm.fp, hlow⟩, hhigh⟩, h.bounds,
    h.loaded, h.spared⟩

theorem Left.at_sp (h : Left S o m) {sp : Int} (hlow : m.stackBase ≤ sp)
    (hhigh : sp ≤ m.stackLimit) : Left S o { m with sp } :=
  have hm := h.inPlace
  ⟨⟨⟨hm.bottom, hlow, hhigh, hm.room, hm.depth, hm.rsp, hm.fp, hm.pc⟩, hm.pc_le⟩, h.bounds,
    h.loaded, h.spared⟩

theorem Left.at_fp (h : Left S o m) {fp : Int} (hlow : 0 ≤ fp) (hhigh : fp < 65536) :
    Left S o { m with fp } :=
  have hm := h.inPlace
  ⟨⟨⟨hm.bottom, hm.low, hm.high, hm.room, hm.depth, hm.rsp, ⟨hlow, hhigh⟩, hm.pc⟩, hm.pc_le⟩,
    h.bounds, h.loaded, h.spared⟩

theorem Left.at_rsp (h : Left S o m) {rsp : Int} (hlow : 0 ≤ rsp)
    (hhigh : rsp ≤ m.config.callDepth) : Left S o { m with rsp } :=
  have hm := h.inPlace
  ⟨⟨⟨hm.bottom, hm.low, hm.high, hm.room, hm.depth, ⟨hlow, hhigh⟩, hm.fp, hm.pc⟩, hm.pc_le⟩,
    h.bounds, h.loaded, h.spared⟩

/-- Bytes may be written to the addresses that may be touched. -/
theorem Left.written (h : Left S o m) {address : Nat} {bytes : Bytes}
    (hS : ∀ i, address ≤ i → i < address + bytes.length → S i) :
    Left S o { m with memory := m.memory.write address bytes } := by
  have hm := h.inPlace
  refine ⟨⟨⟨hm.bottom, hm.low, hm.high, hm.room, hm.depth, hm.rsp, hm.fp, hm.pc⟩, hm.pc_le⟩,
    h.bounds, h.loaded, ?_⟩
  intro i hi
  have hout : i < address ∨ address + bytes.length ≤ i := by
    by_contra hin
    exact hi (hS i (by omega) (by omega))
  rw [Memory.write_getElem? hout]
  exact h.spared i hi

end Left

/-! ### Work and where it may stop -/

/-- What the outcome of confined work has to satisfy. -/
def Contained {α : Type} (S : Nat → Prop) (o : Machine) (C : Prop) (Q : α → Machine → Prop) :
    EStateM.Result Stop Machine α → Prop
  | .ok a m => Left S o m ∧ Q a m
  | .error stop m => Left S o m ∧ (stop = .crash → C)

/-- Work on `m` that leaves of `o` what `Left S` says wherever it stops, ends with a value and
a machine as in `Q`, and crashes only if `C`. -/
structure Confined {α : Type} (S : Nat → Prop) (o : Machine) (C : Prop) (x : Exec α) (m : Machine)
    (Q : α → Machine → Prop) : Prop where
  outcome : Contained S o C Q (x.run m)

section Rules

variable {α β : Type} {S : Nat → Prop} {o m : Machine} {C : Prop} {here : Int}

theorem confined_pure {a : α} {Q : α → Machine → Prop} (hm : Left S o m) (h : Q a m) :
    Confined S o C (pure a) m Q := ⟨⟨hm, h⟩⟩

theorem confined_fail {fault : Fault} {Q : α → Machine → Prop} (hm : Left S o m) :
    Confined S o C (fail fault) m Q := ⟨⟨hm, fun h => Stop.noConfusion h⟩⟩

theorem confined_crash {Q : α → Machine → Prop} (hm : Left S o m) (hC : C) :
    Confined S o C (throw .crash) m Q := ⟨⟨hm, fun _ => hC⟩⟩

theorem confined_modify {f : Machine → Machine} {Q : PUnit → Machine → Prop}
    (hm : Left S o (f m)) (h : Q ⟨⟩ (f m)) : Confined S o C (modify f) m Q := ⟨⟨hm, h⟩⟩

/-- A register is set before the next piece of work. -/
theorem confined_modify_bind {f : Machine → Machine} {g : PUnit → Exec α} {Q : α → Machine → Prop}
    (h : Confined S o C (g ⟨⟩) (f m) Q) : Confined S o C (modify f >>= g) m Q := by
  constructor
  rw [EStateM.run_bind, EStateM.run_modify]
  exact h.outcome

theorem confined_set {m' : Machine} {Q : PUnit → Machine → Prop}
    (hm : Left S o m') (h : Q ⟨⟩ m') : Confined S o C (set m') m Q := ⟨⟨hm, h⟩⟩

/-- What one piece of work leaves, the next goes on from. -/
theorem Confined.bind {x : Exec α} {f : α → Exec β} {P : α → Machine → Prop}
    {Q : β → Machine → Prop} (h : Confined S o C x m P)
    (hf : ∀ a m', Left S o m' → P a m' → Confined S o C (f a) m' Q) :
    Confined S o C (x >>= f) m Q := by
  have hx := h.outcome
  constructor
  rw [EStateM.run_bind]
  cases hrun : x.run m with
  | error stop m' =>
    rw [hrun] at hx
    exact hx
  | ok a m' =>
    rw [hrun] at hx
    exact (hf a m' hx.1 hx.2).outcome

theorem Confined.mono {x : Exec α} {P Q : α → Machine → Prop} (h : Confined S o C x m P)
    (hPQ : ∀ a m', Left S o m' → P a m' → Q a m') : Confined S o C x m Q := by
  have hx := h.outcome
  constructor
  cases hrun : x.run m with
  | error stop m' =>
    rw [hrun] at hx
    exact hx
  | ok a m' =>
    rw [hrun] at hx
    exact ⟨hx.1, hPQ a m' hx.1 hx.2⟩

/-- The machine a work starts on may be looked at. -/
theorem confined_get_bind {f : Machine → Exec α} {Q : α → Machine → Prop}
    (h : Confined S o C (f m) m Q) : Confined S o C (get >>= f) m Q := by
  constructor
  rw [EStateM.run_bind, EStateM.run_get]
  exact h.outcome

theorem confined_ite {p : Prop} [Decidable p] {x y : Exec α} {Q : α → Machine → Prop}
    (hx : p → Confined S o C x m Q) (hy : ¬ p → Confined S o C y m Q) :
    Confined S o C (if p then x else y) m Q := by
  split_ifs with h
  · exact hx h
  · exact hy h

/-- A slice inside memory is there. -/
theorem confined_slice (hm : Left S o m) {low high : Int} (hlow : 0 ≤ low) (hle : low ≤ high)
    (hhigh : high ≤ memorySize) :
    Confined S o C (slice low high) m fun bytes m' =>
      bytes = m.memory.read low.toNat (high - low).toNat ∧ m' = m := by
  unfold slice
  refine confined_get_bind ?_
  rw [Memory.slice?, if_pos ⟨hlow, hle, hhigh⟩]
  exact confined_pure hm ⟨rfl, rfl⟩

theorem confined_store (hm : Left S o m) {address : Int} {bytes : Bytes} (hlow : 0 ≤ address)
    (hS : ∀ i : Nat, address ≤ i → (i : Int) < address + bytes.length → S i) :
    Confined S o C (store address bytes) m fun _ m' =>
      m' = { m with memory := m.memory.write address.toNat bytes } := by
  refine confined_modify (hm.written ?_) rfl
  intro i hi hi'
  exact hS i (by omega) (by omega)

/-! ### Reading the code -/

theorem confined_fetch (hm : Left S o m) :
    Confined S o C (fetch here) m fun b m' =>
      m.memory.get? m.pc = some b ∧ m' = { m with pc := m.pc + 1 } := by
  have hpc := hm.inPlace.pc
  unfold fetch
  refine confined_get_bind (confined_ite (fun _ => confined_fail hm) fun hin => ?_)
  refine confined_get_bind ?_
  have hlt : m.pc.toNat < memorySize := by omega
  have hneg : ¬ m.pc < 0 := by omega
  rw [Memory.get?, if_neg hneg, Vector.getElem?_eq_getElem hlt]
  exact confined_modify_bind (confined_pure (hm.at_pc (by omega) (by omega)) ⟨rfl, rfl⟩)

theorem confined_fetchNat (hm : Left S o m) :
    Confined S o C (fetchNat here) m fun n m' =>
      (∃ b : UInt8, m.memory.get? m.pc = some b ∧ n = b.toNat) ∧ m' = { m with pc := m.pc + 1 } := by
  unfold fetchNat
  refine (confined_fetch hm).bind ?_
  rintro b m' hm' ⟨hb, hm''⟩
  exact confined_pure hm' ⟨⟨b, hb, rfl⟩, hm''⟩

theorem confined_fetchAddress (hm : Left S o m) :
    Confined S o C (fetchAddress here) m fun a m' =>
      (0 ≤ a ∧ a < 65536) ∧ m' = { m with pc := m.pc + 1 + 1 } := by
  unfold fetchAddress
  refine (confined_fetch hm).bind ?_
  rintro low m₁ hm₁ ⟨_, rfl⟩
  refine (confined_fetch hm₁).bind ?_
  rintro high m₂ hm₂ ⟨_, rfl⟩
  have hlt := (addressOfBytes low high).toNat_lt
  exact confined_pure hm₂ ⟨by omega, rfl⟩

theorem confined_jump (hm : Left S o m) {target : Int} :
    Confined S o C (jump here target) m fun _ _ => True := by
  unfold jump
  refine confined_ite (fun _ => confined_fail hm) fun hin => ?_
  simp only [Bool.or_eq_true, decide_eq_true_eq] at hin
  exact confined_modify (hm.at_pc (by omega) (by omega)) trivial

/-! ### The value stack -/

theorem confined_top (hm : Left S o m) {count : Nat} :
    Confined S o C (top here count) m fun bytes m' =>
      m.stackBase ≤ m.sp - count ∧ bytes = m.memory.read (m.sp - count).toNat count ∧ m' = m := by
  have hbottom := hm.inPlace.bottom
  have hhigh := hm.inPlace.high
  have hroom := hm.inPlace.room
  have hdepth := hm.inPlace.depth
  unfold top
  refine confined_get_bind (confined_ite (fun _ => confined_fail hm) fun hin => ?_)
  refine (confined_slice hm (by omega) (by omega) (by omega)).mono ?_
  rintro bytes m' _ ⟨hbytes, hm'⟩
  rw [show (m.sp - (m.sp - count)).toNat = count by omega] at hbytes
  exact ⟨by omega, hbytes, hm'⟩

theorem confined_pop (hm : Left S o m) {count : Nat} :
    Confined S o C (pop here count) m fun bytes m' =>
      m.stackBase ≤ m.sp - count ∧ bytes = m.memory.read (m.sp - count).toNat count ∧
        m' = { m with sp := m.sp - count } := by
  have hbottom := hm.inPlace.bottom
  have hhigh := hm.inPlace.high
  have hroom := hm.inPlace.room
  have hdepth := hm.inPlace.depth
  unfold pop
  refine confined_get_bind (confined_ite (fun _ => confined_fail hm) fun hin => ?_)
  refine confined_modify_bind ?_
  refine (confined_slice (hm.at_sp ?_ ?_) (by omega) (by omega) (by omega)).mono ?_
  · omega
  · omega
  rintro bytes m' _ ⟨hbytes, hm'⟩
  rw [show (m.sp - (m.sp - count)).toNat = count by omega] at hbytes
  exact ⟨by omega, hbytes, hm'⟩

theorem confined_popByte (hm : Left S o m) : Confined S o C (popByte here) m fun _ _ => True := by
  unfold popByte
  refine (confined_pop hm).bind ?_
  rintro bytes m' hm' _
  exact confined_pure hm' trivial

/-- The number in the `count` bytes below `sp`, as it is taken off the stack. -/
def numberBelow (m : Machine) (sp : Int) (count : Nat) : Int :=
  wrap (Number.value ((m.memory.read (sp - count).toNat count).take 8))

theorem confined_popNumber (hm : Left S o m) {count : Nat} :
    Confined S o C (popNumber here count) m fun n m' =>
      m.stackBase ≤ m.sp - count ∧ n = m.numberBelow m.sp count ∧
        m' = { m with sp := m.sp - count } := by
  unfold popNumber
  refine (confined_pop hm).bind ?_
  rintro bytes m' hm' ⟨hin, rfl, hm''⟩
  exact confined_pure hm' ⟨hin, rfl, hm''⟩

/-- Two bytes make an address. -/
theorem numberBelow_two (m : Machine) (sp : Int) :
    0 ≤ m.numberBelow sp addressSize ∧ m.numberBelow sp addressSize < 65536 := by
  have hlt := Number.value_lt ((m.memory.read (sp - addressSize).toNat addressSize).take 8)
  rw [List.length_take, Memory.length_read, show min 8 addressSize = 2 from rfl] at hlt
  rw [numberBelow, wrap_eq_self (by omega) (by omega)]
  omega

theorem confined_allocate (hm : Left S o m) {count : Nat} :
    Confined S o C (allocate here count) m fun _ m' =>
      m.sp + count ≤ m.stackLimit ∧ m' = { m with sp := m.sp + count } := by
  have hbottom := hm.inPlace.bottom
  have hlow := hm.inPlace.low
  have hroom := hm.inPlace.room
  have hdepth := hm.inPlace.depth
  unfold allocate
  refine confined_get_bind (confined_ite (fun _ => confined_fail hm) fun hin => ?_)
  refine (confined_slice hm (by omega) (by omega) (by omega)).bind ?_
  rintro _ m' hm' ⟨_, rfl⟩
  exact confined_modify (hm.at_sp (by omega) (by omega)) ⟨by omega, rfl⟩

theorem confined_push (hm : Left S o m) (hS : ∀ i, o.OnStack i → S i) {bytes : Bytes} :
    Confined S o C (push here bytes) m fun _ m' => m'.pc = m.pc := by
  have hbottom := hm.inPlace.bottom
  have hlow := hm.inPlace.low
  unfold push
  refine confined_get_bind ((confined_allocate hm).bind ?_)
  rintro _ m' hm' ⟨hin, rfl⟩
  refine (confined_store hm' (by omega) ?_).mono ?_
  · intro i hi hi'
    exact hS i ⟨by have := hm.stackBase; omega, by have := hm.stackLimit; omega⟩
  · rintro _ m' _ rfl
    rfl

theorem confined_pushed (hm : Left S o m) (hS : ∀ i, o.OnStack i → S i) {bytes : Bytes} :
    Confined S o C (push here bytes) m fun _ _ => True :=
  (confined_push hm hS).mono fun _ _ _ _ => trivial

/-- Bytes that lie on the stack are replaced by as many others. -/
theorem confined_replaceTop (hm : Left S o m) (hS : ∀ i, o.OnStack i → S i) {bytes : Bytes}
    (hin : m.stackBase ≤ m.sp - bytes.length) :
    Confined S o C (replaceTop bytes) m fun _ _ => True := by
  have hbottom := hm.inPlace.bottom
  have hhigh := hm.inPlace.high
  unfold replaceTop
  refine confined_get_bind ((confined_store hm (by omega) ?_).mono fun _ _ _ _ => trivial)
  intro i hi hi'
  exact hS i ⟨by have := hm.stackBase; omega, by have := hm.stackLimit; omega⟩

theorem confined_compare (hm : Left S o m) (hS : ∀ i, o.OnStack i → S i)
    {comparison : Comparison} {size : Nat} :
    Confined S o C (compare here comparison size) m fun _ _ => True := by
  unfold compare
  refine (confined_pop hm).bind fun b m₁ hm₁ _ => ?_
  refine (confined_pop hm₁).bind fun a m₂ hm₂ _ => ?_
  exact confined_pushed hm₂ hS

theorem confined_arithmetic (hm : Left S o m) (hS : ∀ i, o.OnStack i → S i)
    {operation : Arithmetic} {size : Nat} :
    Confined S o C (arithmetic here operation size) m fun _ _ => True := by
  rw [arithmetic_eq]
  refine (confined_pop hm).bind ?_
  rintro b m₁ hm₁ ⟨_, hb, _⟩
  refine (confined_top hm₁).bind ?_
  rintro a m₂ hm₂ ⟨hin, ha, rfl⟩
  have hsame : a.length = b.length := by rw [ha, hb, Memory.length_read, Memory.length_read]
  cases hr : Number.arithmetic operation a b with
  | none => exact confined_fail hm₂
  | some result =>
    refine confined_replaceTop hm₂ hS ?_
    rw [Number.length_arithmetic hsame hr, ha, Memory.length_read]
    exact hin

theorem confined_logical (hm : Left S o m) (hS : ∀ i, o.OnStack i → S i)
    {combine : Bool → Bool → Bool} : Confined S o C (logical here combine) m fun _ _ => True := by
  unfold logical
  refine (confined_popByte hm).bind fun b m₁ hm₁ _ => ?_
  refine (confined_popByte hm₁).bind fun a m₂ hm₂ _ => ?_
  exact confined_pushed hm₂ hS

/-! ### Variables and memory -/

theorem confined_base (hm : Left S o m) {scope : Scope} :
    Confined S o C (base scope) m fun _ _ => True := by
  unfold base
  refine confined_get_bind ?_
  cases scope with
  | frame => exact confined_pure hm trivial
  | globals => exact confined_pure hm trivial

theorem confined_frame (hm : Left S o m) {address : Int} {count : Nat} :
    Confined S o C (frame here address count) m fun _ m' =>
      m.stackBase ≤ address ∧ address + count ≤ m.stackLimit ∧ m' = m := by
  have hbottom := hm.inPlace.bottom
  have hroom := hm.inPlace.room
  have hdepth := hm.inPlace.depth
  unfold frame
  refine confined_get_bind (confined_ite (fun _ => confined_fail hm) fun hin => ?_)
  simp only [Bool.or_eq_true, decide_eq_true_eq] at hin
  refine (confined_slice hm (by omega) (by omega) (by omega)).mono ?_
  rintro _ m' _ ⟨_, hm'⟩
  exact ⟨by omega, by omega, hm'⟩

theorem confined_assign (hm : Left S o m) (hS : ∀ i, o.OnStack i → S i) {address : Int}
    {count : Nat} : Confined S o C (assign here address count) m fun _ _ => True := by
  unfold assign
  refine (confined_pop hm).bind ?_
  rintro value m₁ hm₁ ⟨_, hvalue, _⟩
  have hlength : value.length = count := by rw [hvalue, Memory.length_read]
  refine (confined_frame hm₁).bind ?_
  rintro _ m₂ hm₂ ⟨hlow, hhigh, rfl⟩
  have hbottom := hm₂.inPlace.bottom
  refine (confined_store hm₂ (by omega) ?_).mono fun _ _ _ _ => trivial
  intro i hi hi'
  exact hS i ⟨by have := hm₂.stackBase; omega, by have := hm₂.stackLimit; omega⟩

/-- The last address that a register can hold is this one less one. -/
def registerLimit : Int := 9223372036854775808

/-- A sum that leaves the range of a register at the top comes back in at the bottom. -/
theorem wrap_eq_sub {n : Int} (hlow : registerLimit ≤ n) (hhigh : n < 18446744073709551616) :
    wrap n = n - 18446744073709551616 := by
  have hlimit : registerLimit = 9223372036854775808 := rfl
  have hpow : ((Nat.pow 2 64 : Nat) : Int) = 18446744073709551616 := rfl
  rw [wrap, Int.bmod_def, hpow, Int.emod_eq_of_lt (by omega) hhigh, if_neg (by omega)]

/-- **A read finds its bytes or reports that they are out of range**, unless they end beyond the
last address a register can hold: the sum then wraps, and the check lets it pass. -/
theorem confined_read (hm : Left S o m) {address : Int} {count : Nat} (hcount : count < 256)
    (haddress : address < registerLimit) (hC : registerLimit ≤ address + count → C) :
    Confined S o C (read here address count) m fun bytes m' =>
      (0 ≤ address ∧ address + count ≤ memorySize) ∧ bytes.length = count ∧ m' = m := by
  have hsize : memorySize = 65536 := rfl
  have hlimit : registerLimit = 9223372036854775808 := rfl
  unfold read
  refine confined_ite (fun _ => confined_fail hm) fun hin => ?_
  simp only [Bool.or_eq_true, decide_eq_true_eq] at hin
  by_cases hover : registerLimit ≤ address + count
  · unfold slice
    refine confined_get_bind ?_
    have hwrapped := wrap_eq_sub (n := address + count) (by omega) (by omega)
    rw [Memory.slice?, if_neg (by rw [hwrapped]; omega)]
    exact confined_crash hm (hC hover)
  · have hwrap : wrap (address + count) = address + count := wrap_eq_self (by omega) (by omega)
    rw [hwrap] at hin ⊢
    refine (confined_slice hm (by omega) (by omega) (by omega)).mono ?_
    rintro bytes m' _ ⟨hbytes, hm'⟩
    refine ⟨by omega, ?_, hm'⟩
    rw [hbytes, Memory.length_read]
    omega

theorem confined_write (hm : Left S o m) (hS : ∀ i, S i) {address : Int} {bytes : Bytes}
    (hcount : bytes.length < 256) (haddress : address < registerLimit)
    (hC : registerLimit ≤ address + bytes.length → C) :
    Confined S o C (write here address bytes) m fun _ _ => True := by
  unfold write
  refine (confined_read hm hcount haddress hC).bind ?_
  rintro _ m' hm' ⟨hin, _, rfl⟩
  exact (confined_store hm' hin.1 fun i _ _ => hS i).mono fun _ _ _ _ => trivial

/-! ### The return stack -/

theorem confined_storeReturn (hm : Left S o m) {address : Int} {b : UInt8} (hlow : 0 ≤ address)
    (hhigh : address < memorySize) (hS : S address.toNat) :
    Confined S o C (storeReturn address b) m fun _ m' =>
      m' = { m with memory := m.memory.write address.toNat [b] } := by
  unfold storeReturn
  refine confined_get_bind ?_
  have hneg : ¬ address < 0 := by omega
  rw [Memory.get?, if_neg hneg, Vector.getElem?_eq_getElem (by omega : address.toNat < memorySize)]
  refine confined_store hm hlow ?_
  intro i hi hi'
  rw [List.length_cons, List.length_nil] at hi'
  have hplace : address.toNat = i := by omega
  rwa [hplace] at hS

/-- A call puts two bytes behind the last return address. -/
theorem confined_pushReturn (hm : Left S o m) (hS : ∀ i, m.NextReturn i → S i) {address : Int} :
    Confined S o C (pushReturn here address) m fun _ _ => True := by
  have hbottom := hm.inPlace.bottom
  have hlow := hm.inPlace.low
  have hhigh := hm.inPlace.high
  have hroom := hm.inPlace.room
  have hrsp := hm.inPlace.rsp
  unfold pushReturn
  refine confined_get_bind (confined_ite (fun _ => confined_fail hm) fun hin => ?_)
  have htwo : m.rsp * (addressSize : Int) = 2 * m.rsp := by
    rw [show (addressSize : Int) = 2 from rfl]
    omega
  dsimp only
  rw [htwo]
  refine (confined_storeReturn hm (by omega) (by omega) (hS _ ⟨by omega, Or.inl (by omega)⟩)).bind ?_
  rintro _ m₁ hm₁ rfl
  refine (confined_storeReturn hm₁ (by omega) (by omega) (hS _ ⟨by omega, Or.inr (by omega)⟩)).bind ?_
  rintro _ m₂ hm₂ rfl
  refine confined_modify (hm₂.at_rsp ?_ ?_) trivial
  · dsimp only
    omega
  · dsimp only
    omega

theorem confined_popReturn (hm : Left S o m) :
    Confined S o C (popReturn here) m fun _ _ => True := by
  have hbottom := hm.inPlace.bottom
  have hlow := hm.inPlace.low
  have hhigh := hm.inPlace.high
  have hroom := hm.inPlace.room
  have hrsp := hm.inPlace.rsp
  unfold popReturn
  refine confined_get_bind (confined_ite (fun _ => confined_fail hm) fun hsome => ?_)
  refine confined_modify_bind ?_
  have hm' : Left S o { m with rsp := m.rsp - 1 } := hm.at_rsp (by omega) (by omega)
  have htwo : (m.rsp - 1) * (addressSize : Int) = 2 * (m.rsp - 1) := by
    rw [show (addressSize : Int) = 2 from rfl]
    omega
  dsimp only
  rw [htwo, Memory.get?, if_neg (by omega), Memory.get?, if_neg (by omega),
    Vector.getElem?_eq_getElem (by omega), Vector.getElem?_eq_getElem (by omega)]
  exact confined_pure hm' trivial

theorem confined_arguments (hm : Left S o m) {size : Nat} :
    Confined S o C (arguments here size) m fun _ _ => True := by
  unfold arguments
  refine confined_ite (fun _ => confined_fail hm) fun _ => ?_
  exact (confined_pop hm).bind fun _ _ hm' _ => confined_pure hm' trivial

end Rules

/-! ### Instructions -/

/-- The opcode at the program counter. -/
def opcode? (m : Machine) : Option Opcode := (m.memory.get? m.pc).bind Opcode.ofByte?

/-- The addresses that an instruction may write to: all for a store to memory, those of the next
return address for a call, otherwise those of the value stack. -/
def touched (m : Machine) : Option Opcode → Nat → Prop
  | some .storeIndexed | some .storeMemory => fun _ => True
  | some .functionCall => m.NextReturn
  | _ => m.OnStack

theorem touched_eq_onStack (m : Machine) {op : Option Opcode} (hindexed : op ≠ some .storeIndexed)
    (hmemory : op ≠ some .storeMemory) (hcall : op ≠ some .functionCall) :
    m.touched op = m.OnStack := by
  rw [touched]
  · exact hindexed
  · exact hmemory
  · exact hcall

/-- The address and the size of an element whose index lies below `sp`, and the address of the
first element below that; none when the stack does not hold both. -/
def elementBelow (m : Machine) (sp : Int) (element indexSize : Nat) : Option (Int × Nat) :=
  if sp - indexSize - addressSize < m.stackBase then none
  else
    let start := m.numberBelow (sp - indexSize) addressSize
    let index := m.numberBelow sp indexSize
    some (wrap (start + index * element), element)

/-- The address and the size of the element that the instruction at the program counter loads or
stores; none when it is no indexed instruction, or stops before it comes to the element. -/
def element? (m : Machine) : Option (Int × Nat) :=
  match m.opcode?, m.memory.get? (m.pc + 1), m.memory.get? (m.pc + 1 + 1) with
  | some .loadIndexed, some element, some indexSize =>
    m.elementBelow m.sp element.toNat indexSize.toNat
  | some .storeIndexed, some element, some indexSize =>
    m.elementBelow (m.sp - element.toNat) element.toNat indexSize.toNat
  | _, _, _ => none

/-- The element at the program counter ends beyond the last address a register can hold. -/
def Overreaches (m : Machine) : Prop :=
  ∃ address size, m.element? = some (address, size) ∧ registerLimit ≤ address + size

section Instructions

variable {S : Nat → Prop} {o : Machine} {C : Prop} {here : Int}

theorem wrap_lt (n : Int) : wrap n < registerLimit := by
  have hlt := Int.bmod_lt (x := n) (m := Nat.pow 2 64) (by decide)
  have hpow : (((Nat.pow 2 64 : Nat) : Int) + 1) / 2 = registerLimit := by decide
  rw [wrap]
  omega

theorem confined_loadNumber {m : Machine} (hm : Left S o m) (hS : ∀ i, o.OnStack i → S i) :
    Confined S o C (perform here .loadNumber) m fun _ _ => True := by
  unfold perform
  refine (confined_fetchNat hm).bind ?_
  rintro size m₁ hm₁ ⟨⟨b, _, rfl⟩, rfl⟩
  have hb := b.toNat_lt
  have hpc := hm₁.inPlace.pc_le
  have hsize : memorySize = 65536 := rfl
  have hlimit : registerLimit = 9223372036854775808 := rfl
  refine confined_get_bind ((confined_read hm₁ (by omega) (by omega) (by omega)).bind ?_)
  rintro bytes m₂ hm₂ ⟨hin, _, rfl⟩
  refine (confined_push hm₂ hS).bind ?_
  rintro _ m₃ hm₃ hsame
  exact confined_modify (hm₃.at_pc (by omega) (by omega)) trivial

/-- The indexed load reads the element that `element?` tells. -/
theorem confined_loadIndexed (hm : Left S o { o with pc := o.pc + 1 })
    (hS : ∀ i, o.OnStack i → S i) (hop : o.opcode? = some .loadIndexed) :
    Confined S o o.Overreaches (perform here .loadIndexed) { o with pc := o.pc + 1 }
      fun _ _ => True := by
  unfold perform
  refine (confined_fetchNat hm).bind ?_
  rintro element m₁ hm₁ ⟨⟨e, he, rfl⟩, rfl⟩
  refine (confined_fetchNat hm₁).bind ?_
  rintro indexSize m₂ hm₂ ⟨⟨n, hn, rfl⟩, rfl⟩
  refine (confined_popNumber hm₂).bind ?_
  rintro index m₃ hm₃ ⟨_, hindex, rfl⟩
  refine (confined_popNumber hm₃).bind ?_
  rintro start m₄ hm₄ ⟨hin, hstart, rfl⟩
  have hsize := e.toNat_lt
  refine (confined_read hm₄ (by omega) (wrap_lt _) ?_).bind ?_
  · intro hover
    refine ⟨_, _, ?_, hover⟩
    have hroom : ¬ o.sp - n.toNat - addressSize < o.stackBase := not_lt.mpr hin
    simp only [element?, hop, he, hn, elementBelow, if_neg hroom, hindex, hstart]
    rfl
  · rintro bytes m₅ hm₅ ⟨_, _, rfl⟩
    exact confined_pushed hm₅ hS

/-- The indexed store writes the element that `element?` tells. -/
theorem confined_storeIndexed (hm : Left S o { o with pc := o.pc + 1 })
    (hS : ∀ i, S i) (hop : o.opcode? = some .storeIndexed) :
    Confined S o o.Overreaches (perform here .storeIndexed) { o with pc := o.pc + 1 }
      fun _ _ => True := by
  unfold perform
  refine (confined_fetchNat hm).bind ?_
  rintro element m₁ hm₁ ⟨⟨e, he, rfl⟩, rfl⟩
  refine (confined_fetchNat hm₁).bind ?_
  rintro indexSize m₂ hm₂ ⟨⟨n, hn, rfl⟩, rfl⟩
  refine (confined_pop hm₂).bind ?_
  rintro value m₃ hm₃ ⟨_, hvalue, rfl⟩
  refine (confined_popNumber hm₃).bind ?_
  rintro index m₄ hm₄ ⟨_, hindex, rfl⟩
  refine (confined_popNumber hm₄).bind ?_
  rintro start m₅ hm₅ ⟨hin, hstart, rfl⟩
  have hsize := e.toNat_lt
  have hlength : value.length = e.toNat := by rw [hvalue, Memory.length_read]
  refine confined_write hm₅ hS (by omega) (wrap_lt _) ?_
  intro hover
  rw [hlength] at hover
  refine ⟨_, _, ?_, hover⟩
  have hroom : ¬ o.sp - e.toNat - n.toNat - addressSize < o.stackBase := not_lt.mpr hin
  simp only [element?, hop, he, hn, elementBelow, if_neg hroom, hindex, hstart]
  rfl

theorem numberBelow_lt (m : Machine) (sp : Int) :
    m.numberBelow sp addressSize + 256 < registerLimit := by
  have hlt := (numberBelow_two m sp).2
  have hlimit : registerLimit = 9223372036854775808 := rfl
  omega

theorem confined_loadMemory {m : Machine} (hm : Left S o m) (hS : ∀ i, o.OnStack i → S i) :
    Confined S o C (perform here .loadMemory) m fun _ _ => True := by
  unfold perform
  refine (confined_fetchNat hm).bind ?_
  rintro size m₁ hm₁ ⟨⟨b, _, rfl⟩, _⟩
  refine (confined_popNumber hm₁).bind ?_
  rintro address m₂ hm₂ ⟨_, haddress, _⟩
  have hlt := numberBelow_lt m₁ m₁.sp
  have hb := b.toNat_lt
  refine (confined_read hm₂ (by omega) (by omega) (by omega)).bind ?_
  rintro bytes m₃ hm₃ _
  exact confined_pushed hm₃ hS

theorem confined_storeMemory {m : Machine} (hm : Left S o m) (hS : ∀ i, S i) :
    Confined S o C (perform here .storeMemory) m fun _ _ => True := by
  unfold perform
  refine (confined_fetchNat hm).bind ?_
  rintro size m₁ hm₁ ⟨⟨b, _, rfl⟩, _⟩
  refine (confined_popNumber hm₁).bind ?_
  rintro address m₂ hm₂ ⟨_, haddress, _⟩
  refine (confined_pop hm₂).bind ?_
  rintro value m₃ hm₃ ⟨_, hvalue, _⟩
  have hlength : value.length = b.toNat := by rw [hvalue, Memory.length_read]
  have hlt := numberBelow_lt m₁ m₁.sp
  have hb := b.toNat_lt
  exact confined_write hm₃ hS (by omega) (by omega) (by omega)

/-- A call touches the place of the next return address only. -/
theorem confined_functionCall (hm : Left S o { o with pc := o.pc + 1 })
    (hS : ∀ i, o.NextReturn i → S i) :
    Confined S o C (perform here .functionCall) { o with pc := o.pc + 1 } fun _ _ => True := by
  unfold perform
  refine (confined_fetchAddress hm).bind ?_
  rintro target m₁ hm₁ ⟨_, rfl⟩
  refine confined_get_bind ((confined_pushReturn hm₁ hS).bind ?_)
  intro _ m₂ hm₂ _
  exact confined_jump hm₂

theorem confined_enterFrame {m : Machine} (hm : Left S o m) :
    Confined S o C (perform here .enterFrame) m fun _ _ => True := by
  unfold perform
  refine (confined_fetchNat hm).bind ?_
  rintro size m₁ hm₁ _
  have hbottom := hm₁.inPlace.bottom
  have hhigh := hm₁.inPlace.high
  have hroom := hm₁.inPlace.room
  have hdepth := hm₁.inPlace.depth
  have hsize : memorySize = 65536 := rfl
  refine confined_get_bind (confined_ite (fun _ => confined_fail hm₁) fun hin => ?_)
  exact confined_set (hm₁.at_fp (by omega) (by omega)) trivial

theorem confined_popFrame {m : Machine} (hm : Left S o m) :
    Confined S o C (perform here .popFrame) m fun _ _ => True := by
  unfold perform
  refine (confined_popNumber hm).bind ?_
  rintro address m₁ hm₁ ⟨_, haddress, _⟩
  have hrange := numberBelow_two m m.sp
  rw [← haddress] at hrange
  exact confined_modify (hm₁.at_fp hrange.1 hrange.2) trivial

/-- Work that replaces the top of the stack by as many bytes. -/
theorem confined_top_replace {m : Machine} (hm : Left S o m) (hS : ∀ i, o.OnStack i → S i)
    {size : Nat} {f : Bytes → Bytes} (hf : ∀ bytes, (f bytes).length = bytes.length) :
    Confined S o C (top here size >>= fun bytes => replaceTop (f bytes)) m fun _ _ => True := by
  refine (confined_top hm).bind ?_
  rintro bytes m₁ hm₁ ⟨hin, hbytes, rfl⟩
  refine confined_replaceTop hm₁ hS ?_
  rw [hf, hbytes, Memory.length_read]
  exact hin

section
variable {m : Machine} {scope : Scope} {offset size : Nat}

/-- An operator on the top of the stack. -/
theorem confined_operator (hm : Left S o m) (hS : ∀ i, o.OnStack i → S i) {f : Bytes → Bytes}
    (hf : ∀ bytes, (f bytes).length = bytes.length) :
    Confined S o C (fetchNat here >>= fun size => top here size >>= fun bytes =>
      replaceTop (f bytes)) m fun _ _ => True :=
  (confined_fetchNat hm).bind fun _ _ hm₁ _ => confined_top_replace hm₁ hS hf

theorem confined_shift (hm : Left S o m) (hS : ∀ i, o.OnStack i → S i) {direction : Direction} :
    Confined S o C (perform here (.shift direction)) m fun _ _ => True := by
  unfold perform
  refine (confined_fetchNat hm).bind fun size m₁ hm₁ _ => ?_
  refine (confined_popByte hm₁).bind fun amount m₂ hm₂ _ => ?_
  exact confined_top_replace hm₂ hS fun bytes => Number.length_shift direction bytes amount.toNat

theorem confined_bitwise (hm : Left S o m) (hS : ∀ i, o.OnStack i → S i) {operation : Bitwise} :
    Confined S o C (perform here (.bitwise operation)) m fun _ _ => True := by
  unfold perform
  refine (confined_fetchNat hm).bind fun left m₁ hm₁ _ => ?_
  refine (confined_fetchNat hm₁).bind fun right m₂ hm₂ _ => ?_
  refine (confined_pop hm₂).bind fun b m₃ hm₃ _ => ?_
  exact (confined_pop hm₃).bind fun a m₄ hm₄ _ => confined_pushed hm₄ hS

/-- A jump that depends on the truth on top of the stack. -/
theorem confined_jumpUnless (hm : Left S o m) {target : Int} :
    Confined S o C (popByte here >>= fun b => if b == 0 then jump here target else pure ⟨⟩) m
      fun _ _ => True :=
  (confined_popByte hm).bind fun _ _ hm₁ _ =>
    confined_ite (fun _ => confined_jump hm₁) fun _ => confined_pure hm₁ trivial

/-- The value of a variable goes on the stack. -/
theorem confined_loadVariable (hm : Left S o m) (hS : ∀ i, o.OnStack i → S i) :
    Confined S o C (base scope >>= fun start => frame here (start + offset) size >>= fun bytes =>
      push here bytes) m fun _ _ => True := by
  refine (confined_base hm).bind fun start m₁ hm₁ _ => ?_
  exact (confined_frame hm₁).bind fun bytes m₂ hm₂ _ => confined_pushed hm₂ hS

/-- A value goes from the stack to a variable. -/
theorem confined_assignVariable (hm : Left S o m) (hS : ∀ i, o.OnStack i → S i) :
    Confined S o C (base scope >>= fun start => assign here (start + offset) size) m
      fun _ _ => True :=
  (confined_base hm).bind fun _ _ hm₁ _ => confined_assign hm₁ hS

theorem confined_copyValue (hm : Left S o m) (hS : ∀ i, o.OnStack i → S i) :
    Confined S o C (perform here .copyValue) m fun _ _ => True := by
  unfold perform
  refine (confined_fetchNat hm).bind fun offset m₁ hm₁ _ => ?_
  refine (confined_fetchNat hm₁).bind fun size m₂ hm₂ _ => ?_
  refine confined_get_bind ((confined_frame hm₂).bind fun bytes m₃ hm₃ _ => ?_)
  exact confined_pushed hm₃ hS

/-- **Every instruction that stays away from memory and the return stack is confined to the
value stack.** -/
theorem confined_perform (hm : Left S o m) (hS : ∀ i, o.OnStack i → S i) {op : Opcode}
    (hload : op ≠ .loadIndexed) (hindexed : op ≠ .storeIndexed) (hstore : op ≠ .storeMemory)
    (hcall : op ≠ .functionCall) : Confined S o C (perform here op) m fun _ _ => True := by
  cases op with
  | loadIndexed => exact absurd rfl hload
  | storeIndexed => exact absurd rfl hindexed
  | storeMemory => exact absurd rfl hstore
  | functionCall => exact absurd rfl hcall
  | loadNumber => exact confined_loadNumber hm hS
  | loadByte => exact (confined_fetch hm).bind fun _ _ hm₁ _ => confined_pushed hm₁ hS
  | loadMemory => exact confined_loadMemory hm hS
  | minus => exact confined_operator hm hS Number.length_negate
  | bitwiseNot => exact confined_operator hm hS Number.length_invert
  | shift => exact confined_shift hm hS
  | bitwise => exact confined_bitwise hm hS
  | compare => exact (confined_fetchNat hm).bind fun _ _ hm₁ _ => confined_compare hm₁ hS
  | compareByte => exact confined_compare hm hS
  | arithmetic => exact (confined_fetchNat hm).bind fun _ _ hm₁ _ => confined_arithmetic hm₁ hS
  | arithmeticByte => exact confined_arithmetic hm hS
  | logicalAnd | logicalOr => exact confined_logical hm hS
  | logicalNot => exact (confined_popByte hm).bind fun _ _ hm₁ _ => confined_pushed hm₁ hS
  | branchForward | branchBackward =>
    exact (confined_fetchNat hm).bind fun _ _ hm₁ _ => confined_jump hm₁
  | jump => exact (confined_fetchAddress hm).bind fun _ _ hm₁ _ => confined_jump hm₁
  | branchForwardIfFalse =>
    exact (confined_fetchNat hm).bind fun _ _ hm₁ _ => confined_jumpUnless hm₁
  | jumpIfFalse => exact (confined_fetchAddress hm).bind fun _ _ hm₁ _ => confined_jumpUnless hm₁
  | functionReturn => exact (confined_popReturn hm).bind fun _ _ hm₁ _ => confined_jump hm₁
  | load =>
    exact (confined_fetchNat hm).bind fun _ _ hm₁ _ =>
      (confined_fetchNat hm₁).bind fun _ _ hm₂ _ => confined_loadVariable hm₂ hS
  | loadOne => exact (confined_fetchNat hm).bind fun _ _ hm₁ _ => confined_loadVariable hm₁ hS
  | assign =>
    exact (confined_fetchNat hm).bind fun _ _ hm₁ _ =>
      (confined_fetchNat hm₁).bind fun _ _ hm₂ _ => confined_assignVariable hm₂ hS
  | assignOne => exact (confined_fetchNat hm).bind fun _ _ hm₁ _ => confined_assignVariable hm₁ hS
  | addressOf =>
    exact (confined_fetchNat hm).bind fun _ _ hm₁ _ =>
      (confined_base hm₁).bind fun _ _ hm₂ _ => confined_pushed hm₂ hS
  | loadFrame => exact confined_get_bind (confined_pushed hm hS)
  | enterFrame => exact confined_enterFrame hm
  | popFrame => exact confined_popFrame hm
  | copyValue => exact confined_copyValue hm hS
  | allocate =>
    exact (confined_fetchNat hm).bind fun _ _ hm₁ _ =>
      (confined_allocate hm₁).mono fun _ _ _ _ => trivial
  | free =>
    exact (confined_fetchNat hm).bind fun _ _ hm₁ _ =>
      (confined_pop hm₁).bind fun _ _ hm₂ _ => confined_pure hm₂ trivial
  | halt | systemCall => exact confined_pure hm trivial

end

/-- What is performed leads to the next instruction; only a system call leads to the host. -/
theorem confined_execute {m : Machine} {op : Opcode} (hm : Left S o m)
    (h : Confined S o C (perform here op) m fun _ _ => True) :
    Confined S o C (execute here op) m fun signal _ =>
      ∀ here request, signal = .call here request → op = .systemCall := by
  unfold execute
  split
  · exact confined_pure hm fun _ _ h => Signal.noConfusion h
  · refine (confined_fetchNat hm).bind fun size m₁ hm₁ _ => ?_
    exact (confined_arguments hm₁).bind fun request m₂ hm₂ _ => confined_pure hm₂ fun _ _ _ => rfl
  · exact h.bind fun _ m₁ hm₁ _ => confined_pure hm₁ fun _ _ h => Signal.noConfusion h

/-- **An instruction leaves a machine in place, touches no other addresses than those `touched`,
and crashes only if it overreaches.** -/
theorem confined_step (ho : o.InPlace) :
    Confined (o.touched o.opcode?) o o.Overreaches step o fun signal _ =>
      ∀ here request, signal = .call here request → o.opcode? = some .systemCall := by
  unfold step
  refine confined_get_bind ((confined_fetch ho.left).bind ?_)
  rintro b m hm ⟨hb, rfl⟩
  have hop : o.opcode? = Opcode.ofByte? b := by rw [opcode?, hb, Option.bind_some]
  cases hdecoded : Opcode.ofByte? b with
  | none => exact confined_fail hm
  | some op =>
    rw [hdecoded] at hop
    rw [hop] at hm ⊢
    simp only [Option.some.injEq]
    refine confined_execute hm ?_
    by_cases hload : op = .loadIndexed
    · subst hload
      exact confined_loadIndexed hm (fun _ hi => hi) hop
    by_cases hindexed : op = .storeIndexed
    · subst hindexed
      exact confined_storeIndexed hm (fun _ => trivial) hop
    by_cases hstore : op = .storeMemory
    · subst hstore
      exact confined_storeMemory hm fun _ => trivial
    by_cases hcall : op = .functionCall
    · subst hcall
      exact confined_functionCall hm fun _ hi => hi
    · refine confined_perform hm (fun i hi => ?_) hload hindexed hstore hcall
      rwa [touched_eq_onStack o (by simpa using hindexed) (by simpa using hstore)
        (by simpa using hcall)]

end Instructions

end Machine

end Terrace
