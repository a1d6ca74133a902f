/-
# Registers throughout a run

Whatever bytes a machine executes and whatever its host answers, its registers are in bounds
between any two instructions of a run and in the state a run leaves, however it ends
(`registers_inBounds`). A session is looked at after any number of instructions, as the run
that is granted just so many leaves it (`Machine.runFor`).

Key definitions: `Machine.Laden`, `Machine.InBounds`.
Key theorems: `Machine.left_turn`, `Machine.left_loop`, `Machine.Laden.placed`,
`Machine.registers_inBounds`.
-/
import Terrace.Proofs.Machine.Confinement
import Terrace.Proofs.Machine.Session

namespace Terrace

/-- The session after a turn. -/
def Turned.session {σ : Type} : Turned σ → Session σ
  | .on s => s
  | .ended s _ => s

namespace Machine

section Left

variable {S T : Nat → Prop} {o m m' : Machine}

theorem Left.trans (h : Left S o m) (h' : Left S m m') : Left S o m' :=
  ⟨h'.inPlace, h'.bounds.trans h.bounds, h'.loaded.trans h.loaded,
    fun i hi => (h'.spared i hi).trans (h.spared i hi)⟩

theorem Left.mono (h : Left S o m) (hST : ∀ i, S i → T i) : Left T o m :=
  ⟨h.inPlace, h.bounds, h.loaded, fun i hi => h.spared i fun hS => hi (hST i hS)⟩

end Left

/-! ### Turns -/

section Turns

variable {σ : Type} (host : Host σ) {S : Nat → Prop} {o : Machine}

/-- The answer to a system call goes to the value stack, and serving it does not crash. -/
theorem left_serve {s : Session σ} (hs : Left S o s.machine) (hS : ∀ i, o.OnStack i → S i)
    (here : Int) (request : Request) :
    Left S o (serve host here request s).1.machine ∧
      (serve host here request s).2 ≠ some .crash := by
  unfold serve
  dsimp only
  split
  · exact ⟨hs, fun h => by cases h⟩
  · have hpush : Confined S o False (push here [(host.serve request s.host).1.a]) s.machine
        fun _ m' => m'.pc = s.machine.pc := confined_push hs hS
    have hout := hpush.outcome
    cases hrun : (push here [(host.serve request s.host).1.a]).run s.machine with
    | ok _ m' =>
      rw [hrun] at hout
      exact ⟨hout.1, fun h => by cases h⟩
    | error stop m' =>
      rw [hrun] at hout
      exact ⟨hout.1, fun h => hout.2 (Option.some.inj h)⟩

theorem finish_machine (s : Session σ) : (finish s).1.machine = s.machine := by
  unfold finish
  dsimp only
  split
  · rfl
  · rfl

/-- **A turn touches what its instruction may touch**, and leaves the machine in place. -/
theorem left_turn {s : Session σ} (hs : s.machine.InPlace) :
    Left (s.machine.touched s.machine.opcode?) s.machine (turn host s).session.machine := by
  rcases turn_cases host (fun _ => False) s with ⟨how, hturn, _⟩ | hturn
  · rw [hturn]
    exact hs.left
  rw [hturn]
  have hout := (confined_step (hs.at_steps (s.machine.steps + 1))).outcome
  cases hrun : step.run { s.machine with steps := s.machine.steps + 1 } with
  | error stop m =>
    rw [hrun] at hout
    exact ⟨hout.1.inPlace, hout.1.bounds, hout.1.loaded, hout.1.spared⟩
  | ok signal m =>
    rw [hrun] at hout
    obtain ⟨hleft, hcall⟩ := hout
    have hm : Left (s.machine.touched s.machine.opcode?) s.machine m :=
      ⟨hleft.inPlace, hleft.bounds, hleft.loaded, hleft.spared⟩
    cases signal with
    | next => exact hm
    | halted =>
      rw [follow, Turned.session, finish_machine]
      exact hm
    | call here request =>
      have hop : s.machine.opcode? = some .systemCall := hcall here request rfl
      have hserved := (left_serve host (s := { traced s with machine := m }) hm
        (by rw [hop]; exact fun _ hi => hi) here request).1
      rw [follow]
      split
      · next t stop heq =>
        rw [heq] at hserved
        exact hserved
      · next t heq =>
        rw [heq] at hserved
        exact hserved

/-- **A run leaves a machine in place that was in place**, with the bounds it had. -/
theorem left_loop : ∀ (fuel : Nat) {s : Session σ}, s.machine.InPlace →
    Left (fun _ => True) s.machine (loop host fuel s).1.machine
  | 0, _, hs => hs.left
  | fuel + 1, s, hs => by
    have hturn := (left_turn host hs).mono (T := fun _ => True) fun _ _ => trivial
    rw [loop_succ]
    cases hnext : turn host s with
    | on s' =>
      rw [hnext] at hturn
      exact hturn.trans (left_loop fuel hturn.inPlace)
    | ended s' how =>
      rw [hnext] at hturn
      exact hturn

end Turns

/-! ### Machines that carry an image -/

/-- Machines with at most 65536 bytes of stack and as many return addresses that have loaded an
image, and may have run from any address with any host and for any number of instructions since.
Larger stacks fit nowhere: they are let in only where the end of the stacks wraps
(`Machine.fits_iff_of_load`). -/
inductive Laden (image : Image) : Machine → Prop
  | loaded {m m' : Machine} (h : m.load image = .ok m') (hstack : m.config.stackSize ≤ 65536)
    (hdepth : m.config.callDepth ≤ 65536) : Laden image m'
  | ran {σ : Type} {s : Session σ} (h : Laden image s.machine) (host : Host σ) (fuel : Nat)
    (start : UInt16) : Laden image (runFor host fuel start s).1.machine

/-- Where a machine has its stacks that carries an image: right behind the code, and in memory. -/
structure Placed (image : Image) (m : Machine) : Prop where
  loaded : m.loaded = true
  stackBase : m.stackBase = image.stop
  stackLimit : m.stackLimit = image.stop + m.config.stackSize
  size : 0 < m.config.stackSize
  depth : 0 < m.config.callDepth
  room : m.stackLimit + 2 * m.config.callDepth ≤ memorySize

section Placed

variable {image : Image} {m m' : Machine}

theorem Placed.of_bounds (h : Placed image m) (hbounds : m'.bounds = m.bounds)
    (hloaded : m'.loaded = m.loaded) : Placed image m' := by
  obtain ⟨hconfig, hbase, hlimit⟩ := by simpa only [bounds, Prod.mk.injEq] using hbounds
  exact ⟨hloaded.trans h.loaded, hbase.trans h.stackBase, by rw [hlimit, hconfig, h.stackLimit],
    by rw [hconfig]; exact h.size, by rw [hconfig]; exact h.depth,
    by rw [hlimit, hconfig]; exact h.room⟩

theorem returnLimit_eq (hlimit : 0 ≤ m.stackLimit) (hdepth : 0 < m.config.callDepth)
    (hroom : m.stackLimit + 2 * m.config.callDepth ≤ memorySize) :
    m.returnLimit = m.stackLimit + 2 * m.config.callDepth := by
  have htwo : (addressSize : Int) = 2 := rfl
  have hsize : memorySize = 65536 := rfl
  have hdouble : wrap (m.config.callDepth * addressSize) = 2 * m.config.callDepth := by
    rw [htwo, wrap_eq_self (by omega) (by omega)]
    omega
  rw [returnLimit, hdouble, wrap_eq_self (by omega) (by omega)]

theorem Placed.returnLimit (h : Placed image m) :
    m.returnLimit = m.stackLimit + 2 * m.config.callDepth := by
  have hlimit := h.stackLimit
  have hsize := h.size
  exact returnLimit_eq (by omega) h.depth h.room

/-- The machine that a run from `start` begins with. -/
def readied (m : Machine) (start : UInt16) : Machine := { m with
  memory := m.memory.clear m.stackBase.toNat (m.returnLimit - m.stackBase).toNat
  pc := start.toNat
  sp := m.stackBase
  fp := m.stackBase
  rsp := 0
  steps := 0 }

/-- A machine that carries an image is made ready. -/
theorem Placed.ready? (h : Placed image m) (start : UInt16) :
    m.ready? start = some (m.readied start) := by
  have hbase := h.stackBase
  have hlimit := h.stackLimit
  have hsize := h.size
  have hdepth := h.depth
  have hroom := h.room
  have hslice : m.memory.slice? m.stackBase m.returnLimit =
      some (m.memory.read m.stackBase.toNat (m.returnLimit - m.stackBase).toNat) := by
    rw [h.returnLimit, Memory.slice?, if_pos (by omega)]
  rw [Machine.ready?, hslice]
  rfl

/-- A machine made ready has its registers in place. -/
theorem Placed.inPlace_readied (h : Placed image m) (start : UInt16) :
    (m.readied start).InPlace := by
  have hbase := h.stackBase
  have hlimit := h.stackLimit
  have hsize := h.size
  have hdepth := h.depth
  have hroom := h.room
  have hmemory : memorySize = 65536 := rfl
  have hstart := start.toNat_lt
  refine ⟨⟨?_, ?_, ?_, hroom, hdepth, ?_, ?_, ?_⟩, ?_⟩
  all_goals
    simp only [readied]
    omega

/-- A run of a machine that carries an image begins with the machine made ready. -/
theorem Placed.runFor_eq (h : Placed image m) {σ : Type} (host : Host σ) (fuel : Nat)
    (start : UInt16) {s : Session σ} (hs : s.machine = m) :
    runFor host fuel start s = loop host fuel { s with
      machine := m.readied start, records := s.records.push (startedRecord start) } := by
  simp only [runFor, hs, h.loaded, h.ready? start, Bool.not_true, Bool.false_eq_true, if_false]

/-- What a run leaves is in place, with the bounds the machine had. -/
theorem Placed.left_runFor (h : Placed image m) {σ : Type} (host : Host σ) (fuel : Nat)
    (start : UInt16) {s : Session σ} (hs : s.machine = m) :
    Left (fun _ => True) m (runFor host fuel start s).1.machine := by
  have hin := h.inPlace_readied start
  rw [h.runFor_eq host fuel start hs]
  have hleft := left_loop host fuel (s := { s with
    machine := m.readied start, records := s.records.push (startedRecord start) }) hin
  exact ⟨hleft.inPlace, hleft.bounds, hleft.loaded, fun _ h => absurd trivial h⟩

/-- **A machine that carries an image has its stacks behind the code**, if the code is one that
a 64-bit address space can hold. -/
theorem Laden.placed (h : Laden image m) (hstop : image.stop < 4611686018427387904) :
    Placed image m := by
  induction h with
  | @loaded m m' hload hstack hdepth =>
    obtain ⟨room, depth, hroom, hcalls, hroompos, hdepthpos, hfits, rfl⟩ :=
      load_eq hload hstop hstack hdepth
    refine ⟨rfl, rfl, ?_, ?_, ?_, ?_⟩
    all_goals
      dsimp only
      omega
  | ran _ host fuel start ih =>
    have hleft := ih.left_runFor host fuel start rfl
    exact ih.of_bounds hleft.bounds hleft.loaded

end Placed

/-! ### Registers -/

/-- The addresses of the room for return addresses. -/
def OnReturns (m : Machine) (address : Nat) : Prop :=
  m.stackLimit ≤ address ∧ (address : Int) < m.returnLimit

/-- The registers are in bounds: the stack pointers inside their stacks, which lie apart in memory,
and the program counter and the frame pointer inside memory. The bytes on the value stack are
then those below the stack pointer. -/
structure InBounds (m : Machine) : Prop where
  sp : m.stackBase ≤ m.sp ∧ m.sp ≤ m.stackLimit
  rsp : 0 ≤ m.rsp ∧ m.rsp ≤ m.config.callDepth
  pc : 0 ≤ m.pc ∧ m.pc ≤ 65536
  fp : 0 ≤ m.fp ∧ m.fp ≤ 65535
  bottom : 0 ≤ m.stackBase
  returnLimit : m.returnLimit = m.stackLimit + 2 * m.config.callDepth
  apart : ∀ address, m.OnStack address → ¬ m.OnReturns address
  inside : ∀ address, m.OnStack address ∨ m.OnReturns address → address < memorySize
  stack : ∃ bytes, m.stack? = some bytes ∧ (bytes.length : Int) = m.sp - m.stackBase

theorem InPlace.inBounds {m : Machine} (h : m.InPlace) : m.InBounds := by
  have hbottom := h.bottom
  have hlow := h.low
  have hhigh := h.high
  have hroom := h.room
  have hdepth := h.depth
  have hreturn := returnLimit_eq (m := m) (by omega) hdepth hroom
  have hmemory : memorySize = 65536 := rfl
  refine ⟨⟨hlow, hhigh⟩, h.rsp, ⟨h.pc, h.pc_le⟩, ?_, hbottom, hreturn, ?_, ?_, ?_⟩
  · have hfp := h.fp
    omega
  · intro address hstack hreturns
    have hlt := hstack.2
    have hle := hreturns.1
    omega
  · rintro address (⟨_, hlt⟩ | ⟨_, hlt⟩)
    · omega
    · omega
  · refine ⟨m.memory.read m.stackBase.toNat (m.sp - m.stackBase).toNat, ?_, ?_⟩
    · rw [stack?, Memory.slice?, if_pos (by omega)]
    · rw [Memory.length_read]
      omega

/-- **Whatever a machine executes, its registers are in bounds** after any number of instructions
of a run, and in the state that a run leaves however it ends. The stacks stay where the image
was loaded: the room for values begins behind the code, and the room for return addresses behind
that. -/
theorem registers_inBounds {image : Image} {m : Machine} (hm : Laden image m)
    (hstop : image.stop < 4611686018427387904) {σ : Type} (host : Host σ) (start : UInt16)
    (s : Session σ) (hs : s.machine = m) (fuel : Nat) :
    (runFor host fuel start s).1.machine.InBounds ∧
      (runFor host fuel start s).1.machine.stackBase = image.stop ∧
      (runFor host fuel start s).1.machine.stackLimit = image.stop + m.config.stackSize ∧
      (runFor host fuel start s).1.machine.config = m.config := by
  have hplaced := hm.placed hstop
  have hleft := hplaced.left_runFor host fuel start hs
  refine ⟨hleft.inPlace.inBounds, ?_, ?_, hleft.config⟩
  · rw [hleft.stackBase, hplaced.stackBase]
  · rw [hleft.stackLimit, hplaced.stackLimit]

/-- Code that sets the frame pointer to the last address and loads a variable from there. -/
def astray : Image where
  code := [1, 2, 0xff, 0xff, 52, 38, 0, 0]
  base := 256
  start := 256

theorem astray_registers : ∃ loaded, ({} : Machine).load astray = .ok loaded ∧
    ∀ fuel, (runFor Host.null fuel 256
      { machine := loaded, host := ({} : Terminal) }).1.machine.InBounds := by
  obtain ⟨loaded, hload⟩ : ∃ loaded, ({} : Machine).load astray = .ok loaded :=
    ⟨_, Fits.load_eq (by decide)⟩
  refine ⟨loaded, hload, fun fuel => ?_⟩
  exact (registers_inBounds (.loaded hload (by decide) (by decide)) (by decide) Host.null 256
    { machine := loaded, host := ({} : Terminal) } rfl fuel).1

end Machine

end Terrace
