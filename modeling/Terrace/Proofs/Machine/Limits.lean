/-
# The limit on instructions only cuts a run short

No instruction looks at the count of instructions or at their limit (`Uncounted`), so a machine
with a limit takes the same turns as one without, as long as the limit is not reached. A run
that is over by then is the same run, and any other one stops at the limit, in the state the run
without it has come to (`limit_truncates`).

Key definitions: `Machine.under`, `Machine.Uncounted`, `Machine.limited`, `Session.limited`.
Key theorems: `Machine.uncounted_step`, `Machine.turn_limited`, `Machine.loop_limited`,
`Machine.loop_of_ended`, `Machine.loop_of_unfinished`, `Machine.limit_truncates`.
-/
import Terrace.Proofs.Machine.Crash
import Terrace.Proofs.Machine.Repetition

namespace Terrace

namespace Machine

/-! ### Work that does not count -/

/-- The machine with another limit on instructions and another count of them. -/
def under (limit : Int) (steps : Nat) (m : Machine) : Machine :=
  { m with config := { m.config with maxSteps := limit }, steps }

/-- An outcome with another machine. -/
def onMachine {α : Type} (f : Machine → Machine) :
    EStateM.Result Stop Machine α → EStateM.Result Stop Machine α
  | .ok a m => .ok a (f m)
  | .error stop m => .error stop (f m)

/-- Work that looks neither at the count of instructions nor at their limit, and changes neither. -/
structure Uncounted {α : Type} (x : Exec α) : Prop where
  run : ∀ limit steps m, x.run (under limit steps m) = onMachine (under limit steps) (x.run m)

section Rules

variable {α β : Type}

theorem uncounted_pure (a : α) : Uncounted (pure a : Exec α) := ⟨fun _ _ _ => rfl⟩

theorem uncounted_throw (stop : Stop) : Uncounted (throw stop : Exec α) := ⟨fun _ _ _ => rfl⟩

theorem uncounted_fail (fault : Fault) : Uncounted (fail fault : Exec α) := uncounted_throw _

/-- What is done to the registers or to memory is done to those of the other machine. -/
theorem uncounted_modify {f : Machine → Machine}
    (hf : ∀ limit steps m, f (under limit steps m) = under limit steps (f m)) :
    Uncounted (modify f) := by
  refine ⟨fun limit steps m => ?_⟩
  show EStateM.Result.ok PUnit.unit (f (under limit steps m)) = _
  rw [hf]
  rfl

theorem Uncounted.bind {x : Exec α} {f : α → Exec β} (hx : Uncounted x)
    (hf : ∀ a, Uncounted (f a)) : Uncounted (x >>= f) := by
  refine ⟨fun limit steps m => ?_⟩
  rw [EStateM.run_bind, EStateM.run_bind, hx.run limit steps m]
  cases x.run m with
  | ok a m' => exact (hf a).run limit steps m'
  | error stop m' => rfl

/-- Work that looks at the machine, though not at the count or the limit. -/
theorem uncounted_get_bind {f : Machine → Exec α}
    (hsame : ∀ limit steps m, f (under limit steps m) = f m) (hf : ∀ m, Uncounted (f m)) :
    Uncounted (get >>= f) := by
  refine ⟨fun limit steps m => ?_⟩
  rw [EStateM.run_bind, EStateM.run_bind, EStateM.run_get, EStateM.run_get]
  show (f (under limit steps m)).run _ = _
  rw [hsame]
  exact (hf m).run limit steps m

theorem uncounted_ite {p : Prop} [Decidable p] {x y : Exec α} (hx : Uncounted x)
    (hy : Uncounted y) : Uncounted (if p then x else y) := by
  by_cases hp : p
  · rwa [if_pos hp]
  · rwa [if_neg hp]

/-- The limit is as it was, and so is the count. -/
theorem Uncounted.kept {x : Exec α} (hx : Uncounted x) (m : Machine) :
    x.run m = onMachine (under m.config.maxSteps m.steps) (x.run m) :=
  hx.run m.config.maxSteps m.steps m

end Rules

/-! ### Instructions -/

section Instructions

variable {here : Int}

theorem uncounted_slice (low high : Int) : Uncounted (slice low high) := by
  unfold slice
  refine uncounted_get_bind (fun _ _ _ => rfl) fun m => ?_
  cases m.memory.slice? low high with
  | some bytes => exact uncounted_pure bytes
  | none => exact uncounted_throw .crash

theorem uncounted_store (address : Int) (bytes : Bytes) : Uncounted (store address bytes) :=
  uncounted_modify fun _ _ _ => rfl

theorem uncounted_fetch : Uncounted (fetch here) := by
  unfold fetch
  refine uncounted_get_bind (fun _ _ _ => rfl) fun m => uncounted_ite (uncounted_fail _) ?_
  refine uncounted_get_bind (fun _ _ _ => rfl) fun m' => ?_
  cases m'.memory.get? m.pc with
  | none => exact uncounted_throw .crash
  | some b => exact (uncounted_modify fun _ _ _ => rfl).bind fun _ => uncounted_pure b

theorem uncounted_fetchNat : Uncounted (fetchNat here) :=
  uncounted_fetch.bind fun b => uncounted_pure b.toNat

theorem uncounted_fetchAddress : Uncounted (fetchAddress here) :=
  uncounted_fetch.bind fun _ => uncounted_fetch.bind fun _ => uncounted_pure _

theorem uncounted_jump (target : Int) : Uncounted (jump here target) :=
  uncounted_ite (uncounted_fail _) (uncounted_modify fun _ _ _ => rfl)

theorem uncounted_read (address : Int) (count : Nat) : Uncounted (read here address count) :=
  uncounted_ite (uncounted_fail _) (uncounted_slice _ _)

theorem uncounted_write (address : Int) (bytes : Bytes) : Uncounted (write here address bytes) :=
  (uncounted_read address bytes.length).bind fun _ => uncounted_store address bytes

theorem uncounted_frame (address : Int) (count : Nat) : Uncounted (frame here address count) :=
  uncounted_get_bind (fun _ _ _ => rfl) fun _ =>
    uncounted_ite (uncounted_fail _) (uncounted_slice _ _)

theorem uncounted_allocate (count : Nat) : Uncounted (allocate here count) := by
  refine uncounted_get_bind (fun _ _ _ => rfl) fun m => uncounted_ite (uncounted_fail _) ?_
  exact (uncounted_slice _ _).bind fun _ => uncounted_modify fun _ _ _ => rfl

theorem uncounted_push (bytes : Bytes) : Uncounted (push here bytes) := by
  refine uncounted_get_bind (fun _ _ _ => rfl) fun m => ?_
  exact (uncounted_allocate bytes.length).bind fun _ => uncounted_store m.sp bytes

theorem uncounted_top (count : Nat) : Uncounted (top here count) :=
  uncounted_get_bind (fun _ _ _ => rfl) fun _ =>
    uncounted_ite (uncounted_fail _) (uncounted_slice _ _)

theorem uncounted_pop (count : Nat) : Uncounted (pop here count) := by
  refine uncounted_get_bind (fun _ _ _ => rfl) fun m => uncounted_ite (uncounted_fail _) ?_
  exact (uncounted_modify fun _ _ _ => rfl).bind fun _ => uncounted_slice _ _

theorem uncounted_popByte : Uncounted (popByte here) :=
  (uncounted_pop 1).bind fun _ => uncounted_pure _

theorem uncounted_popNumber (count : Nat) : Uncounted (popNumber here count) :=
  (uncounted_pop count).bind fun _ => uncounted_pure _

theorem uncounted_replaceTop (bytes : Bytes) : Uncounted (replaceTop bytes) :=
  uncounted_get_bind (fun _ _ _ => rfl) fun _ => uncounted_store _ bytes

theorem uncounted_assign (address : Int) (count : Nat) : Uncounted (assign here address count) := by
  refine (uncounted_pop count).bind fun value => ?_
  exact (uncounted_frame address count).bind fun _ => uncounted_store address value

theorem uncounted_storeReturn (address : Int) (b : UInt8) : Uncounted (storeReturn address b) := by
  refine uncounted_get_bind (fun _ _ _ => rfl) fun m => ?_
  cases m.memory.get? address with
  | some _ => exact uncounted_store address [b]
  | none => exact uncounted_throw .crash

theorem uncounted_pushReturn (address : Int) : Uncounted (pushReturn here address) := by
  refine uncounted_get_bind (fun _ _ _ => rfl) fun m => uncounted_ite (uncounted_fail _) ?_
  refine (uncounted_storeReturn _ _).bind fun _ => (uncounted_storeReturn _ _).bind fun _ => ?_
  exact uncounted_modify fun _ _ _ => rfl

theorem uncounted_popReturn : Uncounted (popReturn here) := by
  refine uncounted_get_bind (fun _ _ _ => rfl) fun m => uncounted_ite (uncounted_fail _) ?_
  refine (uncounted_modify fun _ _ _ => rfl).bind fun _ => ?_
  dsimp only
  split
  · exact uncounted_pure _
  · exact uncounted_throw .crash

theorem uncounted_base (scope : Scope) : Uncounted (base scope) := by
  refine uncounted_get_bind (fun _ _ _ => rfl) fun m => ?_
  cases scope with
  | frame => exact uncounted_pure m.fp
  | globals => exact uncounted_pure m.stackBase

theorem uncounted_compare (comparison : Comparison) (size : Nat) :
    Uncounted (compare here comparison size) :=
  (uncounted_pop size).bind fun _ => (uncounted_pop size).bind fun _ => uncounted_push _

theorem uncounted_arithmetic (operation : Arithmetic) (size : Nat) :
    Uncounted (arithmetic here operation size) := by
  rw [arithmetic_eq]
  refine (uncounted_pop size).bind fun b => (uncounted_top size).bind fun a => ?_
  cases Number.arithmetic operation a b with
  | some result => exact uncounted_replaceTop result
  | none => exact uncounted_fail _

theorem uncounted_logical (combine : Bool → Bool → Bool) : Uncounted (logical here combine) :=
  uncounted_popByte.bind fun _ => uncounted_popByte.bind fun _ => uncounted_push _

theorem uncounted_arguments (size : Nat) : Uncounted (arguments here size) :=
  uncounted_ite (uncounted_fail _) ((uncounted_pop size).bind fun _ => uncounted_pure _)

/-- The frame pointer is set below the arguments of a call. -/
theorem uncounted_enterFrame : Uncounted (perform here .enterFrame) := by
  refine uncounted_fetchNat.bind fun size => ⟨fun limit steps m => ?_⟩
  rw [EStateM.run_bind, EStateM.run_bind, EStateM.run_get, EStateM.run_get]
  show EStateM.run (if m.sp - size < m.stackBase then _ else _) _ = onMachine _ (EStateM.run _ m)
  by_cases hroom : m.sp - size < m.stackBase
  · rw [if_pos hroom, if_pos hroom]
    rfl
  · rw [if_neg hroom, if_neg hroom]
    rfl

theorem uncounted_loadNumber : Uncounted (perform here .loadNumber) := by
  refine uncounted_fetchNat.bind fun size => uncounted_get_bind (fun _ _ _ => rfl) fun m => ?_
  refine (uncounted_read m.pc size).bind fun bytes => (uncounted_push bytes).bind fun _ => ?_
  exact uncounted_modify fun _ _ _ => rfl

/-- An operator on the top of the stack. -/
theorem uncounted_operator (f : Bytes → Bytes) :
    Uncounted (fetchNat here >>= fun size => top here size >>= fun bytes =>
      replaceTop (f bytes)) :=
  uncounted_fetchNat.bind fun size => (uncounted_top size).bind fun _ => uncounted_replaceTop _

theorem uncounted_bitwise (operation : Bitwise) : Uncounted (perform here (.bitwise operation)) := by
  refine uncounted_fetchNat.bind fun left => uncounted_fetchNat.bind fun right => ?_
  exact (uncounted_pop right).bind fun b => (uncounted_pop left).bind fun a => uncounted_push _

theorem uncounted_shift (direction : Direction) : Uncounted (perform here (.shift direction)) := by
  refine uncounted_fetchNat.bind fun size => uncounted_popByte.bind fun amount => ?_
  exact (uncounted_top size).bind fun bytes => uncounted_replaceTop _

/-- A jump that depends on the truth on top of the stack. -/
theorem uncounted_jumpUnless (target : Int) :
    Uncounted (popByte here >>= fun b => if b == 0 then jump here target else pure ⟨⟩) :=
  uncounted_popByte.bind fun _ => uncounted_ite (uncounted_jump target) (uncounted_pure _)

/-- The value of a variable goes on the stack. -/
theorem uncounted_loadVariable (scope : Scope) (offset size : Nat) :
    Uncounted (base scope >>= fun start => frame here (start + offset) size >>= fun bytes =>
      push here bytes) :=
  (uncounted_base scope).bind fun start =>
    (uncounted_frame (start + offset) size).bind fun bytes => uncounted_push bytes

/-- A value goes from the stack to a variable. -/
theorem uncounted_assignVariable (scope : Scope) (offset size : Nat) :
    Uncounted (base scope >>= fun start => assign here (start + offset) size) :=
  (uncounted_base scope).bind fun start => uncounted_assign (start + offset) size

theorem uncounted_loadIndexed : Uncounted (perform here .loadIndexed) := by
  refine uncounted_fetchNat.bind fun element => uncounted_fetchNat.bind fun indexSize => ?_
  refine (uncounted_popNumber indexSize).bind fun index => ?_
  refine (uncounted_popNumber addressSize).bind fun start => ?_
  exact (uncounted_read _ element).bind fun bytes => uncounted_push bytes

theorem uncounted_storeIndexed : Uncounted (perform here .storeIndexed) := by
  refine uncounted_fetchNat.bind fun element => uncounted_fetchNat.bind fun indexSize => ?_
  refine (uncounted_pop element).bind fun value => ?_
  refine (uncounted_popNumber indexSize).bind fun index => ?_
  exact (uncounted_popNumber addressSize).bind fun start => uncounted_write _ value

theorem uncounted_loadMemory : Uncounted (perform here .loadMemory) := by
  refine uncounted_fetchNat.bind fun size => (uncounted_popNumber addressSize).bind fun a => ?_
  exact (uncounted_read a size).bind fun bytes => uncounted_push bytes

theorem uncounted_storeMemory : Uncounted (perform here .storeMemory) := by
  refine uncounted_fetchNat.bind fun size => (uncounted_popNumber addressSize).bind fun a => ?_
  exact (uncounted_pop size).bind fun value => uncounted_write a value

theorem uncounted_functionCall : Uncounted (perform here .functionCall) := by
  refine uncounted_fetchAddress.bind fun target => uncounted_get_bind (fun _ _ _ => rfl) fun m => ?_
  exact (uncounted_pushReturn m.pc).bind fun _ => uncounted_jump target

theorem uncounted_copyValue : Uncounted (perform here .copyValue) := by
  refine uncounted_fetchNat.bind fun offset => uncounted_fetchNat.bind fun size => ?_
  refine uncounted_get_bind (fun _ _ _ => rfl) fun m => ?_
  exact (uncounted_frame _ size).bind fun bytes => uncounted_push bytes

/-- **No opcode looks at the count of instructions or at their limit.** -/
theorem uncounted_perform (op : Opcode) : Uncounted (perform here op) := by
  cases op with
  | loadNumber => exact uncounted_loadNumber
  | loadByte => exact uncounted_fetch.bind fun b => uncounted_push [b]
  | compare comparison =>
    exact uncounted_fetchNat.bind fun size => uncounted_compare comparison size
  | compareByte comparison => exact uncounted_compare comparison 1
  | arithmetic operation =>
    exact uncounted_fetchNat.bind fun size => uncounted_arithmetic operation size
  | arithmeticByte operation => exact uncounted_arithmetic operation 1
  | logicalAnd | logicalOr => exact uncounted_logical _
  | logicalNot => exact uncounted_popByte.bind fun b => uncounted_push _
  | minus => exact uncounted_operator Number.negate
  | bitwiseNot => exact uncounted_operator Number.invert
  | bitwise operation => exact uncounted_bitwise operation
  | shift direction => exact uncounted_shift direction
  | branchForward | branchBackward =>
    exact uncounted_fetchNat.bind fun distance => uncounted_jump _
  | branchForwardIfFalse => exact uncounted_fetchNat.bind fun distance => uncounted_jumpUnless _
  | jump => exact uncounted_fetchAddress.bind fun target => uncounted_jump target
  | jumpIfFalse => exact uncounted_fetchAddress.bind fun target => uncounted_jumpUnless target
  | load scope =>
    exact uncounted_fetchNat.bind fun offset => uncounted_fetchNat.bind fun size =>
      uncounted_loadVariable scope offset size
  | loadOne scope =>
    exact uncounted_fetchNat.bind fun offset => uncounted_loadVariable scope offset 1
  | assign scope =>
    exact uncounted_fetchNat.bind fun offset => uncounted_fetchNat.bind fun size =>
      uncounted_assignVariable scope offset size
  | assignOne scope =>
    exact uncounted_fetchNat.bind fun offset => uncounted_assignVariable scope offset 1
  | addressOf scope =>
    exact uncounted_fetchNat.bind fun offset => (uncounted_base scope).bind fun base =>
      uncounted_push _
  | loadIndexed => exact uncounted_loadIndexed
  | storeIndexed => exact uncounted_storeIndexed
  | loadMemory => exact uncounted_loadMemory
  | storeMemory => exact uncounted_storeMemory
  | functionCall => exact uncounted_functionCall
  | functionReturn => exact uncounted_popReturn.bind fun target => uncounted_jump target
  | loadFrame => exact uncounted_get_bind (fun _ _ _ => rfl) fun m => uncounted_push _
  | enterFrame => exact uncounted_enterFrame
  | popFrame =>
    exact (uncounted_popNumber addressSize).bind fun a => uncounted_modify fun _ _ _ => rfl
  | allocate => exact uncounted_fetchNat.bind fun size => uncounted_allocate size
  | free =>
    exact uncounted_fetchNat.bind fun size => (uncounted_pop size).bind fun _ => uncounted_pure _
  | copyValue => exact uncounted_copyValue
  | halt | systemCall => exact uncounted_pure _

theorem uncounted_execute (op : Opcode) : Uncounted (execute here op) := by
  unfold execute
  split
  · exact uncounted_pure _
  · refine uncounted_fetchNat.bind fun size => ?_
    exact (uncounted_arguments size).bind fun request => uncounted_pure _
  · exact (uncounted_perform _).bind fun _ => uncounted_pure _

/-- **An instruction does the same under any limit.** -/
theorem uncounted_step : Uncounted step := by
  refine uncounted_get_bind (fun _ _ _ => rfl) fun m => uncounted_fetch.bind fun b => ?_
  cases Opcode.ofByte? b with
  | some op => exact uncounted_execute op
  | none => exact uncounted_fail _

end Instructions

/-- The machine with a limit on instructions. -/
def limited (limit : Int) (m : Machine) : Machine :=
  { m with config := { m.config with maxSteps := limit } }

namespace Uncounted

variable {α : Type} {x : Exec α} {m m' : Machine}

theorem limited (hx : Uncounted x) (limit : Int) (m : Machine) :
    x.run (m.limited limit) = onMachine (Machine.limited limit) (x.run m) :=
  calc x.run (m.limited limit)
      = onMachine (under limit m.steps) (x.run m) := hx.run limit m.steps m
    _ = onMachine (Machine.limited limit)
          (onMachine (under m.config.maxSteps m.steps) (x.run m)) := by
        cases x.run m <;> rfl
    _ = onMachine (Machine.limited limit) (x.run m) := by rw [← hx.kept m]

theorem ok_kept (hx : Uncounted x) {a : α} (h : x.run m = .ok a m') :
    m'.config.maxSteps = m.config.maxSteps ∧ m'.steps = m.steps := by
  have hkept := hx.kept m
  rw [h] at hkept
  obtain ⟨-, hsame⟩ := EStateM.Result.ok.inj hkept
  exact ⟨congrArg (·.config.maxSteps) hsame, congrArg (·.steps) hsame⟩

end Uncounted

end Machine

/-- The session whose machine has a limit on instructions. -/
def Session.limited {σ : Type} (limit : Int) (s : Session σ) : Session σ :=
  { s with machine := s.machine.limited limit }

/-- What a turn leads to, with a limit on instructions. -/
def Turned.limited {σ : Type} (limit : Int) : Turned σ → Turned σ
  | .on s => .on (s.limited limit)
  | .ended s how => .ended (s.limited limit) how

namespace Machine

/-! ### Turns -/

section Turns

variable {σ : Type} {host : Host σ} {limit : Int} {s s' : Session σ}

theorem serve_limited (host : Host σ) (limit here : Int) (request : Request) (s : Session σ) :
    serve host here request (s.limited limit) =
      ((serve host here request s).1.limited limit, (serve host here request s).2) := by
  unfold serve
  dsimp only [Session.limited]
  cases (host.serve request s.host).1.failure with
  | some reason => rfl
  | none =>
    dsimp only
    rw [(uncounted_push _).limited limit]
    cases (push here [(host.serve request s.host).1.a]).run s.machine <;> rfl

theorem finish_limited (limit : Int) (s : Session σ) :
    finish (s.limited limit) = ((finish s).1.limited limit, (finish s).2) := by
  have hstack : (s.limited limit).machine.stack? = s.machine.stack? := rfl
  unfold finish
  dsimp only
  rw [hstack]
  cases s.machine.stack? <;> rfl

theorem follow_limited (s : Session σ) (outcome : EStateM.Result Stop Machine Signal) :
    follow host (s.limited limit) (onMachine (limited limit) outcome) =
      (follow host s outcome).limited limit := by
  cases outcome with
  | error stop m => rfl
  | ok signal m =>
    cases signal with
    | next => rfl
    | halted =>
      have hfinish := finish_limited limit { s with machine := m }
      show Turned.ended (finish (Session.limited limit { s with machine := m })).1
        (finish (Session.limited limit { s with machine := m })).2 = _
      rw [hfinish]
      rfl
    | call here request =>
      have hsession : { s.limited limit with machine := m.limited limit } =
          Session.limited limit { s with machine := m } := rfl
      rw [onMachine, follow, follow, hsession, serve_limited]
      rcases serve host here request { s with machine := m } with ⟨t, _ | stop⟩ <;> rfl

/-- **A machine below its limit takes the same turn as one without.** -/
theorem turn_limited (hfree : s.machine.config.maxSteps ≤ 0) (hbelow : s.machine.steps < limit) :
    turn host (s.limited limit) = (turn host s).limited limit := by
  have hstep := uncounted_step.limited limit { s.machine with steps := s.machine.steps + 1 }
  show (if (s.machine.steps % 1024 = 0 && host.cancelled s.host) = true then _
    else if (0 < limit && limit ≤ s.machine.steps) = true then _
    else follow host ((traced s).limited limit)
      (step.run (limited limit { s.machine with steps := s.machine.steps + 1 }))) = _
  rw [hstep, follow_limited, turn]
  by_cases hcancelled : (s.machine.steps % 1024 = 0 && host.cancelled s.host) = true
  · rw [if_pos hcancelled, if_pos hcancelled]
    rfl
  · rw [if_neg hcancelled, if_neg hcancelled, if_neg, if_neg]
    · simp only [Bool.and_eq_true, decide_eq_true_eq]
      omega
    · simp only [Bool.and_eq_true, decide_eq_true_eq]
      omega

/-- Serving a call that does not stop the run counts nothing. -/
theorem serve_on {here : Int} {request : Request} (h : serve host here request s = (s', none)) :
    s'.machine.config.maxSteps = s.machine.config.maxSteps ∧
      s'.machine.steps = s.machine.steps := by
  unfold serve at h
  dsimp only at h
  cases hfailure : (host.serve request s.host).1.failure with
  | some reason =>
    rw [hfailure] at h
    cases h
  | none =>
    rw [hfailure] at h
    dsimp only at h
    cases hrun : (push here [(host.serve request s.host).1.a]).run s.machine with
    | error stop m =>
      rw [hrun] at h
      cases h
    | ok _ m =>
      rw [hrun] at h
      cases h
      exact (uncounted_push _).ok_kept hrun

/-- A turn that goes on counts one instruction. -/
theorem turn_on (h : turn host s = .on s') :
    s'.machine.config.maxSteps = s.machine.config.maxSteps ∧
      s'.machine.steps = s.machine.steps + 1 := by
  unfold turn at h
  dsimp only at h
  split_ifs at h
  cases hrun : step.run { s.machine with steps := s.machine.steps + 1 } with
  | error stop m =>
    rw [hrun] at h
    cases h
  | ok signal m =>
    have hkept := uncounted_step.ok_kept hrun
    rw [hrun] at h
    cases signal with
    | next =>
      cases h
      exact hkept
    | halted => cases h
    | call here request =>
      rw [follow] at h
      cases hserve : serve host here request { traced s with machine := m } with
      | mk t stopped =>
        rw [hserve] at h
        cases stopped with
        | some stop => cases h
        | none =>
          cases h
          have hserved := serve_on hserve
          exact ⟨hserved.1.trans hkept.1, hserved.2.trans hkept.2⟩

theorem turn_ended {how : RunEnd} (h : turn host s = .ended s' how) : how ≠ .unfinished := by
  rintro rfl
  rcases turn_reported host h with hreported | hcrash
  · exact hreported
  · cases hcrash

end Turns

/-! ### Runs -/

section Runs

variable {σ : Type} {host : Host σ}

/-- A run that is over is not changed by granting it more instructions. -/
theorem loop_of_ended : ∀ (k : Nat) {s s' : Session σ} {how : RunEnd},
    loop host k s = (s', how) → how ≠ .unfinished → ∀ j, loop host (k + j) s = (s', how)
  | 0, _, _, _, h, hover, _ => absurd (congrArg Prod.snd h).symm hover
  | k + 1, s, s', how, h, hover, j => by
    rw [loop_succ] at h
    rw [Nat.add_right_comm, loop_succ]
    cases hturn : turn host s with
    | on t =>
      rw [hturn] at h
      exact loop_of_ended k h hover j
    | ended t how' =>
      rw [hturn] at h
      exact h

/-- **A run that is not over goes on from where it is**, and has counted every instruction it was
granted. -/
theorem loop_of_unfinished : ∀ (k : Nat) {s s' : Session σ}, loop host k s = (s', .unfinished) →
    s'.machine.config.maxSteps = s.machine.config.maxSteps ∧
      s'.machine.steps = s.machine.steps + k ∧ ∀ j, loop host (k + j) s = loop host j s'
  | 0, s, s', h => by
    obtain rfl : s = s' := congrArg Prod.fst h
    exact ⟨rfl, rfl, fun j => by rw [Nat.zero_add]⟩
  | k + 1, s, s', h => by
    rw [loop_succ] at h
    cases hturn : turn host s with
    | on t =>
      rw [hturn] at h
      obtain ⟨hconfig, hsteps⟩ := turn_on hturn
      obtain ⟨hconfig', hsteps', hrest⟩ := loop_of_unfinished k h
      refine ⟨hconfig'.trans hconfig, by omega, fun j => ?_⟩
      rw [Nat.add_right_comm, loop_succ, hturn]
      exact hrest j
    | ended t how =>
      rw [hturn] at h
      exact absurd (congrArg Prod.snd h) (turn_ended hturn)

/-- **As long as a limit is not reached, the run is the one without it.** -/
theorem loop_limited (host : Host σ) (limit : Int) : ∀ (fuel : Nat) {s : Session σ},
    s.machine.config.maxSteps ≤ 0 → (s.machine.steps + fuel : Int) ≤ limit →
    loop host fuel (s.limited limit) =
      ((loop host fuel s).1.limited limit, (loop host fuel s).2)
  | 0, _, _, _ => rfl
  | fuel + 1, s, hfree, hroom => by
    have hbelow : (s.machine.steps : Int) < limit := by omega
    rw [loop_succ, loop_succ, turn_limited hfree hbelow]
    cases hturn : turn host s with
    | ended t how => rfl
    | on t =>
      obtain ⟨hconfig, hsteps⟩ := turn_on hturn
      refine loop_limited host limit fuel ?_ ?_
      · omega
      · omega

/-- The host calls a run off that has come to this session. -/
def CalledOff (host : Host σ) (s : Session σ) : Prop :=
  s.machine.steps % 1024 = 0 ∧ host.cancelled s.host = true

theorem loop_called_off {s : Session σ} (h : CalledOff host s) (fuel : Nat) :
    loop host (fuel + 1) s = (s, .cancelled) := by
  have hcalled : (s.machine.steps % 1024 = 0 && host.cancelled s.host) = true := by
    simpa [CalledOff] using h
  rw [loop_succ, turn, if_pos hcalled]

/-- At the limit a run is over, with the session as it is. -/
theorem loop_at_limit {s : Session σ} {n : Nat} (hn : 0 < n) (hsteps : s.machine.steps = n)
    (hgoes : ¬ CalledOff host s) (fuel : Nat) :
    loop host (fuel + 1) (s.limited n) = (s.limited n, .fault (.stepLimit s.machine.pc n)) := by
  have hreached : (0 < (n : Int) && (n : Int) ≤ s.machine.steps) = true := by
    simp only [Bool.and_eq_true, decide_eq_true_eq]
    omega
  have hgoes' : ¬ (s.machine.steps % 1024 = 0 && host.cancelled s.host) = true := by
    simpa [CalledOff] using hgoes
  have hturn : turn host (s.limited n) =
      .ended (s.limited n) (.fault (.stepLimit s.machine.pc s.machine.steps)) :=
    (if_neg hgoes').trans (if_pos hreached)
  rw [loop_succ, hturn, hsteps]

/-- A run does not begin, with or without a limit, or begins with a count of zero. -/
theorem runFor_begins (host : Host σ) (start : UInt16) (limit : Int) (s : Session σ) :
    (∃ how, how ≠ .unfinished ∧ ∀ fuel, runFor host fuel start s = (s, how) ∧
      runFor host fuel start (s.limited limit) = (s.limited limit, how)) ∨
    ∃ b : Session σ, b.machine.config = s.machine.config ∧ b.machine.steps = 0 ∧
      ∀ fuel, runFor host fuel start s = loop host fuel b ∧
        runFor host fuel start (s.limited limit) = loop host fuel (b.limited limit) := by
  have hready : (s.limited limit).machine.ready? start =
      (s.machine.ready? start).map (limited limit) := by
    have hslice : (s.limited limit).machine.memory.slice? (s.limited limit).machine.stackBase
        (s.limited limit).machine.returnLimit =
          s.machine.memory.slice? s.machine.stackBase s.machine.returnLimit := rfl
    rw [ready?, ready?, hslice]
    cases s.machine.memory.slice? s.machine.stackBase s.machine.returnLimit <;> rfl
  have hloaded : (s.limited limit).machine.loaded = s.machine.loaded := rfl
  unfold runFor
  rw [hready, hloaded]
  cases s.machine.loaded with
  | false => exact .inl ⟨.notLoaded, by simp, fun _ => ⟨rfl, rfl⟩⟩
  | true =>
    cases hbegin : s.machine.ready? start with
    | none => exact .inl ⟨.crash, by simp, fun _ => ⟨rfl, rfl⟩⟩
    | some m =>
      refine .inr ⟨{ s with machine := m, records := s.records.push (startedRecord start) }, ?_⟩
      rw [ready?] at hbegin
      split at hbegin
      · cases hbegin
      · cases hbegin
        exact ⟨rfl, rfl, fun _ => ⟨rfl, rfl⟩⟩

/-- The limit has no part in loading an image. -/
theorem load_limited (limit : Int) (m : Machine) (image : Image) :
    (m.limited limit).load image = (m.load image).map (limited limit) := by
  have hsame : (m.limited limit).SeemsToFit image ↔ m.SeemsToFit image :=
    ⟨fun h => ⟨h.room, h.depth, h.inside⟩, fun h => ⟨h.room, h.depth, h.inside⟩⟩
  rcases m.load_cases image with ⟨hseems, hload⟩ | ⟨hno, hload⟩
  · rcases (m.limited limit).load_cases image with ⟨-, hlimited⟩ | ⟨hno, -⟩
    · rw [hload, hlimited]
      rfl
    · exact absurd (hsame.mpr hseems) hno
  · rcases (m.limited limit).load_cases image with ⟨hseems, -⟩ | ⟨-, hlimited⟩
    · exact absurd (hsame.mp hseems) hno
    · rw [hload, hlimited]
      rfl

/-- **A limit on instructions only cuts a run short.** An image is loaded with a limit as without
one. A run without a limit that is over after at most `n` instructions, however it ended, is the
same run with the limit `n`. Any other one has then counted `n` instructions, and with the limit
it ends there, in the same state, with the fault of the limit; or called off by its host, if the
host calls off the run without a limit there too. -/
theorem limit_truncates (host : Host σ) (start : UInt16) (s : Session σ)
    (hfree : s.machine.config.maxSteps ≤ 0) {n : Nat} (hn : 0 < n) :
    (∀ image, (s.machine.limited n).load image = (s.machine.load image).map (limited n)) ∧
    (∀ k ≤ n, ∀ s' how, runFor host k start s = (s', how) → how ≠ .unfinished →
      ∀ fuel ≥ k, runFor host fuel start s = (s', how) ∧
        runFor host fuel start (s.limited n) = (s'.limited n, how)) ∧
    ∀ s', runFor host n start s = (s', .unfinished) → s'.machine.steps = n ∧
      ∀ fuel > n,
        (¬ CalledOff host s' → runFor host fuel start (s.limited n) =
          (s'.limited n, .fault (.stepLimit s'.machine.pc n))) ∧
        (CalledOff host s' → runFor host fuel start s = (s', .cancelled) ∧
          runFor host fuel start (s.limited n) = (s'.limited n, .cancelled)) := by
  refine ⟨load_limited n s.machine, ?_⟩
  rcases runFor_begins host start n s with ⟨how, hover, hrun⟩ | ⟨b, hconfig, hsteps, hrun⟩
  · constructor
    · intro k _ s' how' hend _ fuel _
      rw [(hrun k).1] at hend
      cases hend
      exact hrun fuel
    · intro s' hend
      rw [(hrun n).1] at hend
      exact absurd (congrArg Prod.snd hend) hover
  have hbfree : b.machine.config.maxSteps ≤ 0 := hconfig ▸ hfree
  simp only [(hrun _).1, (hrun _).2]
  constructor
  · intro k hk s' how hend hover fuel hfuel
    have hlimited := loop_limited host n k hbfree (by omega)
    rw [hend] at hlimited
    obtain ⟨j, rfl⟩ := Nat.exists_eq_add_of_le hfuel
    exact ⟨loop_of_ended k hend hover j, loop_of_ended k hlimited hover j⟩
  · intro s' hend
    have hlimited := loop_limited host n n hbfree (by omega)
    rw [hend] at hlimited
    obtain ⟨hconfig', hcount, hrest⟩ := loop_of_unfinished n hend
    obtain ⟨-, -, hrest'⟩ := loop_of_unfinished n hlimited
    have hcount' : s'.machine.steps = n := by omega
    refine ⟨hcount', fun fuel hfuel => ?_⟩
    obtain ⟨j, rfl⟩ := Nat.exists_eq_add_of_le (Nat.succ_le_of_lt hfuel)
    have hfuel : n + 1 + j = n + (j + 1) := by omega
    show (¬ _ → loop host (n + 1 + j) _ = _) ∧ (_ → loop host (n + 1 + j) _ = _ ∧ _)
    rw [hfuel, hrest, hrest']
    exact ⟨fun hgoes => loop_at_limit hn hcount' hgoes j, fun hcalled =>
      ⟨loop_called_off hcalled j, loop_called_off (s := s'.limited n) hcalled j⟩⟩

end Runs

/-- Code that calls the operating system over and over. -/
def knocking : Image where
  code := [1, 3, 0xee, 0xff, 65, 56, 3, 54, 1, 31, 9]
  base := 0
  start := 0

theorem knocking_loads : ∃ loaded, greeter.load knocking = .ok loaded ∧
    loaded.config = greeter.config :=
  ⟨_, Fits.load_eq (by decide), rfl⟩

/-- The knocking goes on after its second call, which is its sixth instruction. -/
theorem knocking_goes_on {loaded : Machine} (hload : greeter.load knocking = .ok loaded) :
    ∃ s' : Session Terminal, runFor Host.null 6 0 { machine := loaded, host := {} } =
      (s', .unfinished) ∧ s'.calls.size = 2 ∧ s'.machine.pc = 7 := by
  have hrun : (greeter.load knocking).toOption.map (fun loaded =>
      let after := runFor Host.null 6 0 { machine := loaded, host := ({} : Terminal) }
      (after.2, after.1.calls.size, after.1.machine.pc)) = some (.unfinished, 2, 7) := by
    rw [load_eq_loadUpTo 64 (by decide)]
    decide +kernel
  rw [hload] at hrun
  simp only [Except.toOption, Option.map_some, Option.some.injEq, Prod.mk.injEq] at hrun
  exact ⟨_, Prod.ext rfl hrun.1, hrun.2⟩

theorem knocking_truncated : ∃ (loaded : Machine) (s' : Session Terminal),
    greeter.load knocking = .ok loaded ∧ s'.calls.size = 2 ∧ ∀ fuel > 6,
      runFor Host.null fuel 0 (Session.limited 6 { machine := loaded, host := {} }) =
        (s'.limited 6, .fault (.stepLimit 7 6)) := by
  obtain ⟨loaded, hload, hconfig⟩ := knocking_loads
  obtain ⟨s', hgoes, hcalls, hpc⟩ := knocking_goes_on hload
  obtain ⟨-, -, hlimit⟩ := limit_truncates Host.null 0 { machine := loaded, host := {} }
    (by rw [hconfig]; decide) (n := 6) (by decide)
  obtain ⟨-, hstops⟩ := hlimit s' hgoes
  refine ⟨loaded, s', hload, hcalls, fun fuel hfuel => ?_⟩
  rw [← hpc]
  exact (hstops fuel hfuel).1 fun hcalled => Bool.false_ne_true hcalled.2

end Machine

end Terrace
