/-
# The one way to crash

A machine checks every access to memory before it makes it, but for one case: the check of an
element's end is a 64-bit sum, and an index of eight bytes or more can put the element so close
to the last address a register can hold that the sum wraps and passes. An instruction crashes
exactly if it overreaches in this way (`step_crash_iff`), and so does a run (`run_crash_iff`).

Key definitions: `Machine.Crashes`, `Machine.Interrupted`.
Key theorems: `Machine.step_crash_iff`, `Machine.run_crash_iff`.
-/
import Terrace.Proofs.Machine.Registers

namespace Terrace

namespace Machine

/-! ### Instructions that crash -/

/-- Work on a machine that crashes. -/
def Crashes {α : Type} (x : Exec α) (m : Machine) : Prop := ∃ m', x.run m = .error .crash m'

section Crashes

variable {α β : Type} {m : Machine} {here : Int}

theorem crashes_bind {x : Exec α} {f : α → Exec β} {a : α} {m' : Machine}
    (hx : x.run m = .ok a m') (h : Crashes (f a) m') : Crashes (x >>= f) m := by
  obtain ⟨m'', h⟩ := h
  exact ⟨m'', by rw [EStateM.run_bind, hx]; exact h⟩

theorem Crashes.bind {x : Exec α} {f : α → Exec β} (h : Crashes x m) : Crashes (x >>= f) m := by
  obtain ⟨m', h⟩ := h
  exact ⟨m', by rw [EStateM.run_bind, h]⟩

theorem get?_lt {memory : Memory} {address : Int} {b : UInt8} (h : memory.get? address = some b) :
    address < memorySize := by
  rw [Memory.get?] at h
  split_ifs at h
  obtain ⟨hlt, _⟩ := Vector.getElem?_eq_some_iff.mp h
  omega

theorem run_fetch {b : UInt8} (hb : m.memory.get? m.pc = some b) :
    (fetch here).run m = .ok b { m with pc := m.pc + 1 } := by
  have hin : ¬ (memorySize : Int) ≤ m.pc := not_le.mpr (get?_lt hb)
  unfold fetch
  rw [EStateM.run_bind, EStateM.run_get]
  dsimp only
  rw [if_neg hin, EStateM.run_bind, EStateM.run_get]
  dsimp only
  rw [hb]
  rfl

theorem run_fetchNat {b : UInt8} (hb : m.memory.get? m.pc = some b) :
    (fetchNat here).run m = .ok b.toNat { m with pc := m.pc + 1 } := by
  unfold fetchNat
  rw [EStateM.run_bind, run_fetch hb]
  rfl

theorem run_pop (hbottom : 0 ≤ m.stackBase) (hhigh : m.sp ≤ memorySize) {count : Nat}
    (hin : m.stackBase ≤ m.sp - count) :
    (pop here count).run m =
      .ok (m.memory.read (m.sp - count).toNat count) { m with sp := m.sp - count } := by
  have hslice : m.memory.slice? (m.sp - count) m.sp =
      some (m.memory.read (m.sp - count).toNat count) := by
    rw [Memory.slice?, if_pos ⟨by omega, by omega, hhigh⟩,
      show (m.sp - (m.sp - count)).toNat = count by omega]
  unfold pop slice
  rw [EStateM.run_bind, EStateM.run_get]
  dsimp only
  rw [if_neg (not_lt.mpr hin), EStateM.run_bind, EStateM.run_modify]
  dsimp only
  rw [EStateM.run_bind, EStateM.run_get]
  dsimp only
  rw [hslice]
  rfl

theorem run_popNumber (hbottom : 0 ≤ m.stackBase) (hhigh : m.sp ≤ memorySize) {count : Nat}
    (hin : m.stackBase ≤ m.sp - count) :
    (popNumber here count).run m = .ok (m.numberBelow m.sp count) { m with sp := m.sp - count } := by
  unfold popNumber
  rw [EStateM.run_bind, run_pop hbottom hhigh hin]
  rfl

/-- A read that ends beyond the last address a register can hold passes the check. -/
theorem crashes_read {address : Int} {count : Nat} (hcount : count < 256)
    (haddress : address < registerLimit) (hover : registerLimit ≤ address + count) :
    Crashes (read here address count) m := by
  have hlimit : registerLimit = 9223372036854775808 := rfl
  have hwrapped := wrap_eq_sub hover (by omega)
  have hpasses : ¬ (address < 0 || (memorySize : Int) < wrap (address + count)) = true := by
    simp only [Bool.or_eq_true, decide_eq_true_eq]
    omega
  have hslice : m.memory.slice? address (wrap (address + count)) = none := by
    rw [Memory.slice?, if_neg (by omega)]
  refine ⟨m, ?_⟩
  unfold read slice
  rw [if_neg hpasses, EStateM.run_bind, EStateM.run_get]
  dsimp only
  rw [hslice]
  rfl

theorem crashes_loadIndexed (hm : m.InPlace) {element indexSize : UInt8} {address : Int}
    {size : Nat} (helement : m.memory.get? m.pc = some element)
    (hindexSize : m.memory.get? (m.pc + 1) = some indexSize)
    (hplace : m.elementBelow m.sp element.toNat indexSize.toNat = some (address, size))
    (hover : registerLimit ≤ address + size) : Crashes (perform here .loadIndexed) m := by
  have hhigh := hm.high
  have hroom := hm.room
  have hdepth := hm.depth
  have hsize := element.toNat_lt
  rw [elementBelow] at hplace
  split_ifs at hplace with hin
  rw [not_lt] at hin
  obtain ⟨rfl, rfl⟩ := Prod.mk.inj (Option.some.inj hplace)
  have hsp : m.sp ≤ memorySize := by omega
  have hindex : m.stackBase ≤ m.sp - indexSize.toNat := by omega
  have hbelow : m.sp - indexSize.toNat ≤ memorySize := by omega
  unfold perform
  refine crashes_bind (run_fetchNat helement) (crashes_bind (run_fetchNat hindexSize) ?_)
  refine crashes_bind (run_popNumber ?_ ?_ ?_) ?_
  · exact hm.bottom
  · exact hsp
  · exact hindex
  refine crashes_bind (run_popNumber ?_ ?_ ?_) ?_
  · exact hm.bottom
  · exact hbelow
  · exact hin
  exact (crashes_read hsize (wrap_lt _) hover).bind

theorem crashes_storeIndexed (hm : m.InPlace) {element indexSize : UInt8} {address : Int}
    {size : Nat} (helement : m.memory.get? m.pc = some element)
    (hindexSize : m.memory.get? (m.pc + 1) = some indexSize)
    (hplace : m.elementBelow (m.sp - element.toNat) element.toNat indexSize.toNat =
      some (address, size))
    (hover : registerLimit ≤ address + size) : Crashes (perform here .storeIndexed) m := by
  have hhigh := hm.high
  have hroom := hm.room
  have hdepth := hm.depth
  have hsize := element.toNat_lt
  rw [elementBelow] at hplace
  split_ifs at hplace with hin
  rw [not_lt] at hin
  obtain ⟨rfl, rfl⟩ := Prod.mk.inj (Option.some.inj hplace)
  have hsp : m.sp ≤ memorySize := by omega
  have hvalue : m.stackBase ≤ m.sp - element.toNat := by omega
  have hnext : m.sp - element.toNat ≤ memorySize := by omega
  have hindex : m.stackBase ≤ m.sp - element.toNat - indexSize.toNat := by omega
  have hbelow : m.sp - element.toNat - indexSize.toNat ≤ memorySize := by omega
  unfold perform
  refine crashes_bind (run_fetchNat helement) (crashes_bind (run_fetchNat hindexSize) ?_)
  refine crashes_bind (run_pop ?_ ?_ ?_) ?_
  · exact hm.bottom
  · exact hsp
  · exact hvalue
  refine crashes_bind (run_popNumber ?_ ?_ ?_) ?_
  · exact hm.bottom
  · exact hnext
  · exact hindex
  refine crashes_bind (run_popNumber ?_ ?_ ?_) ?_
  · exact hm.bottom
  · exact hbelow
  · exact hin
  unfold write
  refine (crashes_read ?_ (wrap_lt _) ?_).bind
  · rw [Memory.length_read]
    exact hsize
  · rw [Memory.length_read]
    exact hover

/-- **An instruction crashes exactly if it overreaches.** -/
theorem step_crash_iff (hm : m.InPlace) : Crashes step m ↔ m.Overreaches := by
  constructor
  · rintro ⟨m', hcrash⟩
    have hout := (confined_step hm).outcome
    rw [hcrash] at hout
    exact hout.2 rfl
  · rintro ⟨address, size, helement, hover⟩
    cases hb : m.memory.get? m.pc with
    | none => simp [element?, opcode?, hb] at helement
    | some b =>
    have hpc := hm.pc
    have hlt := get?_lt hb
    have hleft : Left (fun _ => False) m m := hm.left
    have hm' : InPlace { m with pc := m.pc + 1 } := (hleft.at_pc (by omega) (by omega)).inPlace
    have hop : m.opcode? = Opcode.ofByte? b := by rw [opcode?, hb, Option.bind_some]
    rw [element?, hop] at helement
    unfold step
    refine crashes_bind (EStateM.run_get m) (crashes_bind (run_fetch hb) ?_)
    split at helement
    · next element indexSize hop helement' hindexSize =>
      rw [hop]
      exact (crashes_loadIndexed hm' helement' hindexSize helement hover).bind
    · next element indexSize hop helement' hindexSize =>
      rw [hop]
      exact (crashes_storeIndexed hm' helement' hindexSize helement hover).bind
    · cases helement

end Crashes

/-! ### Runs that crash -/

section Runs

variable {σ : Type} (host : Host σ) {s : Session σ}

/-- A run that ends so has left its bytes on the stack, or says why it has not. -/
def Reported : RunEnd → Prop
  | .finished _ | .fault _ | .cancelled => True
  | _ => False

/-- A run goes no further than this session: it is called off, or has used up its instructions. -/
def Interrupted (s : Session σ) : Prop :=
  (s.machine.steps % 1024 = 0 && host.cancelled s.host) = true ∨
    (0 < s.machine.config.maxSteps && s.machine.config.maxSteps ≤ s.machine.steps) = true

theorem turn_of_interrupted (h : Interrupted host s) :
    ∃ how, turn host s = .ended s how ∧ Reported how := by
  unfold turn
  dsimp only
  split_ifs with hcancelled hlimit
  · exact ⟨_, rfl, trivial⟩
  · exact ⟨_, rfl, trivial⟩
  · exact absurd h (not_or.mpr ⟨hcancelled, hlimit⟩)

theorem turn_of_not_interrupted (h : ¬ Interrupted host s) : turn host s =
    follow host (traced s) (step.run { s.machine with steps := s.machine.steps + 1 }) := by
  obtain ⟨hcancelled, hlimit⟩ := not_or.mp h
  unfold turn
  dsimp only
  rw [if_neg hcancelled, if_neg hlimit]

theorem endOf_eq_crash {stop : Stop} (h : endOf stop = .crash) : stop = .crash := by
  cases stop with
  | fault fault => cases h
  | crash => rfl

/-- What follows from an instruction on a machine in place is a crash only if the instruction
crashed. -/
theorem follow_crash {m : Machine} (hm : m.InPlace) {s s' : Session σ}
    (h : follow host s (step.run m) = .ended s' .crash) : Crashes step m := by
  have hout := (confined_step hm).outcome
  cases hrun : step.run m with
  | error stop m' =>
    rw [hrun, follow, Turned.ended.injEq] at h
    rw [endOf_eq_crash h.2] at hrun
    exact ⟨m', hrun⟩
  | ok signal m' =>
    rw [hrun] at h hout
    obtain ⟨hleft, hcall⟩ := hout
    cases signal with
    | next => cases h
    | halted =>
      obtain ⟨bytes, hstack, _⟩ := hleft.inPlace.inBounds.stack
      simp only [follow, finish, hstack] at h
      cases h
    | call here request =>
      have hop : m.opcode? = some .systemCall := hcall here request rfl
      have hserved := (left_serve host (s := { s with machine := m' }) hleft
        (by rw [hop]; exact fun _ hi => hi) here request).2
      rw [follow] at h
      split at h
      · next t stop heq =>
        rw [heq] at hserved
        rw [Turned.ended.injEq] at h
        exact absurd (congrArg some (endOf_eq_crash h.2)) hserved
      · cases h

/-- **A turn crashes exactly if its instruction overreaches.** -/
theorem turn_crash_iff (hs : s.machine.InPlace) :
    (∃ s', turn host s = .ended s' .crash) ↔ ¬ Interrupted host s ∧ s.machine.Overreaches := by
  have hin := hs.at_steps (s.machine.steps + 1)
  constructor
  · rintro ⟨s', hturn⟩
    have hgoes : ¬ Interrupted host s := by
      intro hinterrupted
      obtain ⟨how, hended, hreported⟩ := turn_of_interrupted host hinterrupted
      rw [hended, Turned.ended.injEq] at hturn
      rw [hturn.2] at hreported
      exact hreported
    rw [turn_of_not_interrupted host hgoes] at hturn
    exact ⟨hgoes, (step_crash_iff hin).mp (follow_crash host hin hturn)⟩
  · rintro ⟨hgoes, hover⟩
    obtain ⟨m, hcrash⟩ := (step_crash_iff hin).mpr hover
    exact ⟨{ traced s with machine := m }, by
      rw [turn_of_not_interrupted host hgoes, hcrash, follow, endOf]⟩

/-- A turn that ends a run has its end reported or crashes. -/
theorem turn_reported {s' : Session σ} {how : RunEnd} (h : turn host s = .ended s' how) :
    Reported how ∨ how = .crash := by
  have hend : ∀ stop, Reported (endOf stop) ∨ endOf stop = .crash := by
    intro stop
    cases stop with
    | fault fault => exact Or.inl trivial
    | crash => exact Or.inr rfl
  by_cases hinterrupted : Interrupted host s
  · obtain ⟨how', hended, hreported⟩ := turn_of_interrupted host hinterrupted
    rw [hended, Turned.ended.injEq] at h
    rw [← h.2]
    exact Or.inl hreported
  rw [turn_of_not_interrupted host hinterrupted] at h
  generalize step.run { s.machine with steps := s.machine.steps + 1 } = result at h
  rcases result with ⟨signal, m⟩ | ⟨stop, m⟩
  · cases signal with
    | next => cases h
    | halted =>
      rw [follow, Turned.ended.injEq] at h
      rw [← h.2]
      unfold finish
      dsimp only
      split
      · exact Or.inl trivial
      · exact Or.inr rfl
    | call here request =>
      rw [follow] at h
      split at h
      · rw [Turned.ended.injEq] at h
        rw [← h.2]
        exact hend _
      · cases h
  · rw [follow, Turned.ended.injEq] at h
    rw [← h.2]
    exact hend stop

/-- A run has its end reported, crashes or is unfinished. -/
theorem loop_reported : ∀ (fuel : Nat) (s : Session σ), Reported (loop host fuel s).2 ∨
    (loop host fuel s).2 = .crash ∨ (loop host fuel s).2 = .unfinished
  | 0, _ => Or.inr (Or.inr rfl)
  | fuel + 1, s => by
    rw [loop_succ]
    cases hnext : turn host s with
    | on s' => exact loop_reported fuel s'
    | ended s' how => exact (turn_reported host hnext).imp_right Or.inl

/-- **A run crashes exactly if it comes to an instruction that overreaches.** -/
theorem loop_crash_iff : ∀ (fuel : Nat) {s : Session σ}, s.machine.InPlace →
    ((loop host fuel s).2 = .crash ↔ ∃ k < fuel, ∃ s', loop host k s = (s', .unfinished) ∧
      ¬ Interrupted host s' ∧ s'.machine.Overreaches)
  | 0, _, _ => by
    constructor
    · intro h
      cases h
    · rintro ⟨k, hk, _⟩
      omega
  | fuel + 1, s, hs => by
    have hturn := turn_crash_iff host hs
    have hleft := left_turn host hs
    rw [loop_succ]
    cases hnext : turn host s with
    | on s₁ =>
      rw [hnext] at hleft
      have hnone : ¬ (¬ Interrupted host s ∧ s.machine.Overreaches) := by
        rw [← hturn, hnext]
        rintro ⟨s', h⟩
        cases h
      refine (loop_crash_iff fuel (s := s₁) hleft.inPlace).trans ⟨?_, ?_⟩
      · rintro ⟨k, hk, s', hloop, hover⟩
        exact ⟨k + 1, by omega, s', by rw [loop_succ, hnext]; exact hloop, hover⟩
      · rintro ⟨k, hk, s', hloop, hover⟩
        cases k with
        | zero =>
          cases hloop
          exact absurd hover hnone
        | succ k =>
          rw [loop_succ, hnext] at hloop
          exact ⟨k, by omega, s', hloop, hover⟩
    | ended s₁ how =>
      constructor
      · rintro rfl
        exact ⟨0, by omega, s, rfl, hturn.mp ⟨s₁, hnext⟩⟩
      · rintro ⟨k, hk, s', hloop, hover⟩
        cases k with
        | zero =>
          cases hloop
          obtain ⟨s₂, hcrash⟩ := hturn.mpr hover
          rw [hnext, Turned.ended.injEq] at hcrash
          exact hcrash.2
        | succ k =>
          rw [loop_succ, hnext] at hloop
          cases hloop
          rcases turn_reported host hnext with h | h
          · exact h.elim
          · cases h

/-- **A run of any code crashes exactly if it comes to an indexed instruction whose element ends
beyond the last address a register can hold**; otherwise it has its end reported, unless it is
unfinished. -/
theorem run_crash_iff {image : Image} {m : Machine} (hm : Laden image m)
    (hstop : image.stop < 4611686018427387904) (start : UInt16) (s : Session σ)
    (hs : s.machine = m) (fuel : Nat) :
    ((runFor host fuel start s).2 = .crash ↔
      ∃ k < fuel, ∃ s', runFor host k start s = (s', .unfinished) ∧ ¬ Interrupted host s' ∧
        s'.machine.Overreaches) ∧
      (Reported (runFor host fuel start s).2 ∨ (runFor host fuel start s).2 = .crash ∨
        (runFor host fuel start s).2 = .unfinished) := by
  have hplaced := hm.placed hstop
  simp only [hplaced.runFor_eq host _ start hs]
  exact ⟨loop_crash_iff host fuel (hplaced.inPlace_readied start), loop_reported host fuel _⟩

end Runs

/-- Code that loads the element at index 2 ^ 63 - 1 of the bytes at address 0. -/
def farElement : Image where
  code := [1, 10, 0, 0, 255, 255, 255, 255, 255, 255, 255, 127, 44, 1, 8, 0]
  base := 0
  start := 0

/-- A machine with little room. -/
def smallMachine : Machine := { config := { stackSize := 12, callDepth := 1 } }

theorem farElement_loads : ∃ loaded, smallMachine.load farElement = .ok loaded :=
  ⟨_, Fits.load_eq (by decide)⟩

theorem farElement_end {loaded : Machine} (hload : smallMachine.load farElement = .ok loaded) :
    (run Host.null 0 { machine := loaded, host := ({} : Terminal) }).2 = .crash := by
  have hcrash : (smallMachine.load farElement).toOption.map (fun loaded =>
      (run Host.null 0 { machine := loaded, host := ({} : Terminal) }).2) = some .crash := by
    rw [load_eq_loadUpTo 64 (by decide)]
    decide +kernel
  rw [hload] at hcrash
  exact Option.some.inj hcrash

theorem farElement_crashes : ∃ loaded, smallMachine.load farElement = .ok loaded ∧
    (run Host.null 0 { machine := loaded, host := ({} : Terminal) }).2 = .crash := by
  obtain ⟨loaded, hload⟩ := farElement_loads
  exact ⟨loaded, hload, farElement_end hload⟩

theorem farElement_overreaches : ∃ loaded, smallMachine.load farElement = .ok loaded ∧
    ∃ k < patience, ∃ s', runFor Host.null k 0 { machine := loaded, host := ({} : Terminal) } =
      (s', .unfinished) ∧ ¬ Interrupted Host.null s' ∧ s'.machine.Overreaches := by
  obtain ⟨loaded, hload⟩ := farElement_loads
  exact ⟨loaded, hload, (run_crash_iff Host.null (.loaded hload (by decide) (by decide)) (by decide)
    0 { machine := loaded, host := ({} : Terminal) } rfl patience).1.mp (farElement_end hload)⟩

end Machine

end Terrace
