/-
# Registers in place

A machine is `Sound` if its registers are in place: the code and free memory, the value stack
and the return stack lie one behind the other, and the stack pointers point into their stacks.
Such a machine stands at a view of its own (`Sound.stands`), so that everything known about
views holds of it. The settings and the bounds of the stacks are the same in every machine
of a run: no instruction changes them (`keepsBounds_step`).

Key definitions: `Machine.Sound`, `Machine.view`, `Machine.bounds`, `Machine.KeepsBounds`.
Key theorems: `Machine.Sound.stands`, `Machine.keepsBounds_step`.
-/
import Terrace.Proofs.Machine.Number
import Terrace.Proofs.Machine.Standing

namespace Terrace

/-! ### Machines whose registers are in place -/

namespace Machine

/-- The registers are in place: the stacks lie one behind the other in memory, and what they
hold lies inside them. -/
structure Sound (m : Machine) : Prop where
  bottom : 0 ≤ m.stackBase
  low : m.stackBase ≤ m.sp
  high : m.sp ≤ m.stackLimit
  room : m.stackLimit + 2 * m.config.callDepth ≤ memorySize
  depth : 0 < m.config.callDepth
  rsp : 0 ≤ m.rsp ∧ m.rsp ≤ m.config.callDepth
  fp : 0 ≤ m.fp ∧ m.fp < 65536
  pc : 0 ≤ m.pc

/-- The addresses on a return stack that begins at `address`. -/
def returnsFrom (memory : Memory) : Nat → Nat → List Nat
  | _, 0 => []
  | address, count + 1 =>
    (addressOfBytes (memory.bytes[address]?.getD 0) (memory.bytes[address + 1]?.getD 0)).toNat ::
      returnsFrom memory (address + 2) count

theorem length_returnsFrom (memory : Memory) : ∀ (count address : Nat),
    (returnsFrom memory address count).length = count
  | 0, _ => rfl
  | count + 1, address => by
    rw [returnsFrom, List.length_cons, length_returnsFrom memory count]

theorem holds_returnsFrom {memory : Memory} : ∀ {count address : Nat},
    address + 2 * count ≤ memorySize →
    memory.Holds address (returnBytes (returnsFrom memory address count))
  | 0, _, _ => Memory.holds_nil
  | count + 1, address, h => by
    have hlow : address < memorySize := by omega
    have hhigh : address + 1 < memorySize := by omega
    have ih := @holds_returnsFrom memory count (address + 2) (by omega)
    have hword : ∀ w : UInt16, w.toNat.toUInt16 = w := by
      intro w
      exact UInt16.ofNat_toNat
    have hfirst : memory.Holds address
        [memory.bytes[address]?.getD 0, memory.bytes[address + 1]?.getD 0] := by
      intro i b hi
      rcases i with _ | _ | i
      · rw [List.getElem?_cons_zero, Option.some.injEq, Vector.getElem?_eq_getElem hlow,
          Option.getD_some] at hi
        rw [Nat.add_zero, Vector.getElem?_eq_getElem hlow, hi]
      · rw [List.getElem?_cons_succ, List.getElem?_cons_zero, Option.some.injEq,
          Vector.getElem?_eq_getElem hhigh, Option.getD_some] at hi
        rw [Nat.zero_add, Vector.getElem?_eq_getElem hhigh, hi]
      · simp at hi
    rw [returnsFrom, returnBytes, List.flatMap_cons, hword, addressBytes_addressOfBytes,
      ← returnBytes]
    exact Memory.holds_append.mpr ⟨hfirst, ih⟩

/-- Where a machine keeps its stacks. -/
def Sound.site {m : Machine} (h : m.Sound) : Site where
  low := m.memory.read 0 m.stackBase.toNat
  room := (m.stackLimit - m.stackBase).toNat
  depth := m.config.callDepth.toNat
  fits := by
    have hbottom := h.bottom
    have hlow := h.low
    have hhigh := h.high
    have hroom := h.room
    have hdepth := h.depth
    rw [Memory.length_read]
    omega
  depth_pos := by
    have hdepth := h.depth
    omega

/-- How a machine looks to its program. -/
def view (m : Machine) : View where
  pc := m.pc.toNat
  stack := m.memory.read m.stackBase.toNat (m.sp - m.stackBase).toNat
  fp := m.fp.toNat
  returns := returnsFrom m.memory m.stackLimit.toNat m.rsp.toNat

/-- **A machine whose registers are in place stands at its view.** -/
theorem Sound.stands {m : Machine} (h : m.Sound) : Stands h.site m m.view := by
  have hbottom := h.bottom
  have hlow := h.low
  have hhigh := h.high
  have hroom := h.room
  have hdepth := h.depth
  have hrsp := h.rsp
  have hfp := h.fp
  have hpc := h.pc
  have hlength : h.site.low.length = m.stackBase.toNat := Memory.length_read
  have hreturns : m.view.returns.length = m.rsp.toNat := length_returnsFrom _ _ _
  have hstack : m.view.stack.length = (m.sp - m.stackBase).toNat := Memory.length_read
  have hroom' : h.site.room = (m.stackLimit - m.stackBase).toNat := rfl
  have hdepth' : h.site.depth = m.config.callDepth.toNat := rfl
  refine ⟨by omega, by omega, by omega, ?_, by omega, ?_, ?_, by omega, ?_, ?_, ?_, ?_, by omega⟩
  · exact (Int.toNat_of_nonneg hpc).symm
  · exact (Int.toNat_of_nonneg hfp.1).symm
  · simp only [view]
    omega
  · exact Memory.holds_read (by omega)
  · rw [hlength, show m.view.above = [] from rfl, List.append_nil]
    exact Memory.holds_read (by omega)
  · rw [hstack, show m.view.above = [] from rfl]
    simp only [List.length_nil]
    omega
  · have hlimit : h.site.low.length + h.site.room = m.stackLimit.toNat := by omega
    rw [hlimit]
    exact holds_returnsFrom (by omega)

end Machine

/-! ### What no instruction changes -/

namespace Machine

/-- What no instruction changes: the settings and the bounds of the stacks. -/
def bounds (m : Machine) : Config × Int × Int := (m.config, m.stackBase, m.stackLimit)

/-- The machine some work leaves, however it ends. -/
def leftBy {α : Type} : EStateM.Result Stop Machine α → Machine
  | .ok _ m => m
  | .error _ m => m

/-- Work that changes neither the settings nor the bounds, however it ends. -/
structure KeepsBounds {α : Type} (x : Exec α) : Prop where
  same : ∀ m, (leftBy (x.run m)).bounds = m.bounds

variable {α β : Type}

theorem keepsBounds_pure (a : α) : KeepsBounds (pure a) := ⟨fun _ => rfl⟩

theorem keepsBounds_throw (stop : Stop) : KeepsBounds (throw stop : Exec α) := ⟨fun _ => rfl⟩

theorem keepsBounds_fail (fault : Fault) : KeepsBounds (fail fault : Exec α) := ⟨fun _ => rfl⟩

theorem keepsBounds_get : KeepsBounds get := ⟨fun _ => rfl⟩

theorem keepsBounds_modify {f : Machine → Machine} (hf : ∀ m, (f m).bounds = m.bounds) :
    KeepsBounds (modify f) := ⟨hf⟩

theorem keepsBounds_bind {x : Exec α} {f : α → Exec β} (hx : KeepsBounds x)
    (hf : ∀ a, KeepsBounds (f a)) : KeepsBounds (x >>= f) := by
  constructor
  intro m
  have hm := hx.same m
  rw [EStateM.run_bind]
  cases hrun : x.run m with
  | error stop m' =>
    rw [hrun] at hm
    exact hm
  | ok a m' =>
    rw [hrun] at hm
    exact ((hf a).same m').trans hm

theorem keepsBounds_ite {p : Prop} [Decidable p] {x y : Exec α} (hx : KeepsBounds x)
    (hy : KeepsBounds y) : KeepsBounds (if p then x else y) := by
  split_ifs
  · exact hx
  · exact hy

/-- The machine a work starts on may be looked at. -/
theorem keepsBounds_get_bind {f : Machine → Exec α} (hf : ∀ m, KeepsBounds (f m)) :
    KeepsBounds (get >>= f) :=
  keepsBounds_bind keepsBounds_get hf

theorem keepsBounds_slice (low high : Int) : KeepsBounds (slice low high) := by
  unfold slice
  refine keepsBounds_get_bind fun m => ?_
  cases m.memory.slice? low high with
  | none => exact keepsBounds_throw _
  | some bytes => exact keepsBounds_pure _

theorem keepsBounds_store (address : Int) (bytes : Bytes) : KeepsBounds (store address bytes) :=
  keepsBounds_modify fun _ => rfl

theorem keepsBounds_fetch (here : Int) : KeepsBounds (fetch here) := by
  unfold fetch
  refine keepsBounds_get_bind fun m => keepsBounds_ite (keepsBounds_fail _) ?_
  refine keepsBounds_get_bind fun m' => ?_
  cases m'.memory.get? m.pc with
  | none => exact keepsBounds_throw _
  | some b =>
    exact keepsBounds_bind (keepsBounds_modify fun _ => rfl) fun _ => keepsBounds_pure _

theorem keepsBounds_fetchNat (here : Int) : KeepsBounds (fetchNat here) :=
  keepsBounds_bind (keepsBounds_fetch here) fun _ => keepsBounds_pure _

theorem keepsBounds_fetchAddress (here : Int) : KeepsBounds (fetchAddress here) :=
  keepsBounds_bind (keepsBounds_fetch here) fun _ =>
    keepsBounds_bind (keepsBounds_fetch here) fun _ => keepsBounds_pure _

theorem keepsBounds_jump (here target : Int) : KeepsBounds (jump here target) :=
  keepsBounds_ite (keepsBounds_fail _) (keepsBounds_modify fun _ => rfl)

theorem keepsBounds_read (here address : Int) (count : Nat) :
    KeepsBounds (read here address count) :=
  keepsBounds_ite (keepsBounds_fail _) (keepsBounds_slice _ _)

theorem keepsBounds_write (here address : Int) (bytes : Bytes) :
    KeepsBounds (write here address bytes) :=
  keepsBounds_bind (keepsBounds_read _ _ _) fun _ => keepsBounds_store _ _

theorem keepsBounds_frame (here address : Int) (count : Nat) :
    KeepsBounds (frame here address count) :=
  keepsBounds_get_bind fun _ => keepsBounds_ite (keepsBounds_fail _) (keepsBounds_slice _ _)

theorem keepsBounds_allocate (here : Int) (count : Nat) : KeepsBounds (allocate here count) :=
  keepsBounds_get_bind fun _ => keepsBounds_ite (keepsBounds_fail _)
    (keepsBounds_bind (keepsBounds_slice _ _) fun _ => keepsBounds_modify fun _ => rfl)

theorem keepsBounds_push (here : Int) (bytes : Bytes) : KeepsBounds (push here bytes) :=
  keepsBounds_get_bind fun _ =>
    keepsBounds_bind (keepsBounds_allocate _ _) fun _ => keepsBounds_store _ _

theorem keepsBounds_pushAddress (here address : Int) : KeepsBounds (pushAddress here address) :=
  keepsBounds_push _ _

theorem keepsBounds_top (here : Int) (count : Nat) : KeepsBounds (top here count) :=
  keepsBounds_get_bind fun _ => keepsBounds_ite (keepsBounds_fail _) (keepsBounds_slice _ _)

theorem keepsBounds_pop (here : Int) (count : Nat) : KeepsBounds (pop here count) :=
  keepsBounds_get_bind fun _ => keepsBounds_ite (keepsBounds_fail _)
    (keepsBounds_bind (keepsBounds_modify fun _ => rfl) fun _ => keepsBounds_slice _ _)

theorem keepsBounds_popByte (here : Int) : KeepsBounds (popByte here) :=
  keepsBounds_bind (keepsBounds_pop _ _) fun _ => keepsBounds_pure _

theorem keepsBounds_popNumber (here : Int) (count : Nat) : KeepsBounds (popNumber here count) :=
  keepsBounds_bind (keepsBounds_pop _ _) fun _ => keepsBounds_pure _

theorem keepsBounds_replaceTop (bytes : Bytes) : KeepsBounds (replaceTop bytes) :=
  keepsBounds_get_bind fun _ => keepsBounds_store _ _

theorem keepsBounds_assign (here address : Int) (count : Nat) :
    KeepsBounds (assign here address count) :=
  keepsBounds_bind (keepsBounds_pop _ _) fun _ =>
    keepsBounds_bind (keepsBounds_frame _ _ _) fun _ => keepsBounds_store _ _

theorem keepsBounds_storeReturn (address : Int) (b : UInt8) :
    KeepsBounds (storeReturn address b) := by
  unfold storeReturn
  refine keepsBounds_get_bind fun m => ?_
  cases m.memory.get? address with
  | none => exact keepsBounds_throw _
  | some b => exact keepsBounds_store _ _

theorem keepsBounds_pushReturn (here address : Int) : KeepsBounds (pushReturn here address) :=
  keepsBounds_get_bind fun _ => keepsBounds_ite (keepsBounds_fail _)
    (keepsBounds_bind (keepsBounds_storeReturn _ _) fun _ =>
      keepsBounds_bind (keepsBounds_storeReturn _ _) fun _ => keepsBounds_modify fun _ => rfl)

theorem keepsBounds_popReturn (here : Int) : KeepsBounds (popReturn here) := by
  unfold popReturn
  refine keepsBounds_get_bind fun m => keepsBounds_ite (keepsBounds_fail _) ?_
  refine keepsBounds_bind (keepsBounds_modify fun _ => rfl) fun _ => ?_
  dsimp only
  split
  · exact keepsBounds_pure _
  · exact keepsBounds_throw _

theorem keepsBounds_base (scope : Scope) : KeepsBounds (base scope) := by
  unfold base
  refine keepsBounds_get_bind fun m => ?_
  cases scope <;> exact keepsBounds_pure _

theorem keepsBounds_compare (here : Int) (comparison : Comparison) (size : Nat) :
    KeepsBounds (compare here comparison size) :=
  keepsBounds_bind (keepsBounds_pop _ _) fun _ =>
    keepsBounds_bind (keepsBounds_pop _ _) fun _ => keepsBounds_push _ _

theorem keepsBounds_arithmetic (here : Int) (operation : Arithmetic) (size : Nat) :
    KeepsBounds (arithmetic here operation size) := by
  rw [arithmetic_eq]
  refine keepsBounds_bind (keepsBounds_pop _ _) fun b => ?_
  refine keepsBounds_bind (keepsBounds_top _ _) fun a => ?_
  cases Number.arithmetic operation a b with
  | none => exact keepsBounds_fail _
  | some r => exact keepsBounds_replaceTop _

theorem keepsBounds_logical (here : Int) (combine : Bool → Bool → Bool) :
    KeepsBounds (logical here combine) :=
  keepsBounds_bind (keepsBounds_popByte _) fun _ =>
    keepsBounds_bind (keepsBounds_popByte _) fun _ => keepsBounds_push _ _

theorem keepsBounds_arguments (here : Int) (size : Nat) : KeepsBounds (arguments here size) :=
  keepsBounds_ite (keepsBounds_fail _)
    (keepsBounds_bind (keepsBounds_pop _ _) fun _ => keepsBounds_pure _)

theorem keepsBounds_enterFrame (here : Int) (size : Nat) : KeepsBounds (do
    let m ← get
    if m.sp - size < m.stackBase then fail (.stackUnderflow here size (m.sp - m.stackBase))
    else set { m with fp := m.sp - size }) := by
  constructor
  intro m
  rw [EStateM.run_bind, EStateM.run_get]
  dsimp only
  split_ifs
  · rfl
  · rfl

theorem keepsBounds_perform (here : Int) (op : Opcode) : KeepsBounds (perform here op) := by
  cases op <;> unfold perform
  all_goals
    repeat' with_reducible first
      | exact keepsBounds_enterFrame _ _
      | exact keepsBounds_fetchNat _
      | exact keepsBounds_fetch _
      | exact keepsBounds_fetchAddress _
      | exact keepsBounds_get
      | exact keepsBounds_read _ _ _
      | exact keepsBounds_write _ _ _
      | exact keepsBounds_push _ _
      | exact keepsBounds_pushAddress _ _
      | exact keepsBounds_pop _ _
      | exact keepsBounds_popByte _
      | exact keepsBounds_popNumber _ _
      | exact keepsBounds_top _ _
      | exact keepsBounds_replaceTop _
      | exact keepsBounds_frame _ _ _
      | exact keepsBounds_assign _ _ _
      | exact keepsBounds_base _
      | exact keepsBounds_jump _ _
      | exact keepsBounds_pushReturn _ _
      | exact keepsBounds_popReturn _
      | exact keepsBounds_compare _ _ _
      | exact keepsBounds_arithmetic _ _ _
      | exact keepsBounds_logical _ _
      | exact keepsBounds_allocate _ _
      | exact keepsBounds_pure _
      | refine keepsBounds_bind ?_ fun _ => ?_
      | refine keepsBounds_ite ?_ ?_
    try exact keepsBounds_modify fun _ => rfl

/-- No instruction changes the settings or the bounds. -/
theorem keepsBounds_step : KeepsBounds step := by
  unfold step
  refine keepsBounds_get_bind fun m => ?_
  refine keepsBounds_bind (keepsBounds_fetch _) fun b => ?_
  cases Opcode.ofByte? b with
  | none => exact keepsBounds_fail _
  | some op =>
    dsimp only
    unfold execute
    split
    · exact keepsBounds_pure _
    · exact keepsBounds_bind (keepsBounds_fetchNat _) fun _ =>
        keepsBounds_bind (keepsBounds_arguments _ _) fun _ => keepsBounds_pure _
    · exact keepsBounds_bind (keepsBounds_perform _ _) fun _ => keepsBounds_pure _

end Machine

end Terrace
