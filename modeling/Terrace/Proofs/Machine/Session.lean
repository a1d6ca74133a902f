/-
# Runs, turn by turn

A run is a sequence of turns, each of which executes one instruction and lets the host
answer a system call, unless the run is over. `Arrives … P k s` says what the next turns of
a session lead to: to a session `P`, unless the run is over before for a reason that is
excused. A run that is followed for `k` turns only may be left on its way (`late`), which is
how endless runs are described.

Key definitions: `Machine.turn`, `Excused`, `Arrives`, `Machine.runFor`.
Key theorems: `Machine.loop_succ`, `Arrives.bind`, `Arrives.path`, `Arrives.system_call`,
`Arrives.within`, `Arrives.outright`, `loop_halt`, `Machine.load_eq`.
-/
import Terrace.Proofs.Machine.Instructions
import Terrace.Proofs.Machine.Loading

namespace Terrace

open Machine

/-- What a turn leads to: another turn, or the end of the run. -/
inductive Turned (σ : Type) where
  | on (s : Session σ)
  | ended (s : Session σ) (how : RunEnd)

namespace Machine

variable {σ : Type} (host : Host σ)

/-- The session with the report of the instruction about to be executed. -/
def traced (s : Session σ) : Session σ := { s with
  records := match s.machine.config.trace, s.machine.stepRecord with
    | true, some record => s.records.push record
    | _, _ => s.records }

/-- What follows from the outcome of an instruction. -/
def follow (s : Session σ) : EStateM.Result Stop Machine Signal → Turned σ
  | .error stop m => .ended { s with machine := m } (endOf stop)
  | .ok .halted m => .ended (finish { s with machine := m }).1 (finish { s with machine := m }).2
  | .ok .next m => .on { s with machine := m }
  | .ok (.call here request) m =>
    match serve host here request { s with machine := m } with
    | (s, some stop) => .ended s (endOf stop)
    | (s, none) => .on s

/-- One turn of a run. -/
def turn (s : Session σ) : Turned σ :=
  let steps := s.machine.steps
  if steps % 1024 = 0 && host.cancelled s.host then .ended s .cancelled
  else if 0 < s.machine.config.maxSteps && s.machine.config.maxSteps ≤ steps then
    .ended s (.fault (.stepLimit s.machine.pc steps))
  else follow host (traced s) (step.run { s.machine with steps := steps + 1 })

/-- **A run is its first turn and the run that follows.** -/
theorem loop_succ (fuel : Nat) (s : Session σ) :
    loop host (fuel + 1) s = match turn host s with
      | .on s' => loop host fuel s'
      | .ended s' how => (s', how) := by
  rw [loop, turn]
  dsimp only
  split
  · rfl
  split
  · rfl
  generalize step.run { s.machine with steps := s.machine.steps + 1 } = result
  rcases result with ⟨signal, m⟩ | ⟨stop, m⟩
  · cases signal with
    | next => rfl
    | halted => rfl
    | call here request =>
      change (match serve host here request { traced s with machine := m } with
        | (s, some stop) => (s, endOf stop)
        | (s, none) => loop host fuel s) = match follow host (traced s) (.ok (.call here request) m)
        with
        | .on s' => loop host fuel s'
        | .ended s' how => (s', how)
      rw [follow]
      generalize serve host here request { traced s with machine := m } = served
      rcases served with ⟨t, _ | stop⟩
      · rfl
      · rfl
  · rfl

end Machine

/-- The ends a run is excused for: being called off, the limit on its instructions and the stops
in `E`. -/
inductive Excused (E : Stop → Prop) : RunEnd → Prop
  | cancelled : Excused E .cancelled
  | stepLimit (here : Int) (steps : Nat) : Excused E (.fault (.stepLimit here steps))
  | stop {stop : Stop} (h : E stop) : Excused E (endOf stop)

theorem Excused.mono {E E' : Stop → Prop} {how : RunEnd} (h : Excused E how)
    (hE : ∀ stop, E stop → E' stop) : Excused E' how := by
  cases h with
  | cancelled => exact .cancelled
  | stepLimit here steps => exact .stepLimit here steps
  | stop h => exact .stop (hE _ h)

/-- A turn is excused, or it is what follows from executing an instruction. -/
theorem turn_cases {σ : Type} (host : Host σ) (E : Stop → Prop) (s : Session σ) :
    (∃ how, turn host s = .ended s how ∧ Excused E how) ∨
      turn host s =
        follow host (traced s) (step.run { s.machine with steps := s.machine.steps + 1 }) := by
  by_cases hcancelled : (s.machine.steps % 1024 = 0 && host.cancelled s.host) = true
  · exact Or.inl ⟨_, if_pos hcancelled, .cancelled⟩
  by_cases hlimit : (0 < s.machine.config.maxSteps &&
      s.machine.config.maxSteps ≤ s.machine.steps) = true
  · exact Or.inl ⟨_, (if_neg hcancelled).trans (if_pos hlimit), .stepLimit _ _⟩
  · exact Or.inr ((if_neg hcancelled).trans (if_neg hlimit))

/-- The turns of a session lead to one of the sessions `P`, unless the run ends before as in `E`;
if `lenient`, only the next `k` turns are looked at. -/
inductive Arrives {σ : Type} (host : Host σ) (lenient : Prop) (E : Stop → Prop)
    (P : Session σ → Prop) : Nat → Session σ → Prop
  | here {k : Nat} {s : Session σ} (h : P s) : Arrives host lenient E P k s
  | late {s : Session σ} (h : lenient) : Arrives host lenient E P 0 s
  | ended {k : Nat} {s s' : Session σ} {how : RunEnd} (hturn : turn host s = .ended s' how)
    (hhow : Excused E how) : Arrives host lenient E P k s
  | on {k : Nat} {s s' : Session σ} (hturn : turn host s = .on s')
    (hrest : Arrives host lenient E P (k - 1) s') : Arrives host lenient E P k s

/-- The same machine, with another count of instructions. -/
theorem Stands.at_steps {site : Site} {m : Machine} {v : View} (h : Stands site m v) (steps : Nat) :
    Stands site { m with steps } v where
  bottom := h.bottom
  limit := h.limit
  depth := h.depth
  pc := h.pc
  sp := h.sp
  fp := h.fp
  fp_lt := h.fp_lt
  rsp := h.rsp
  low := h.low
  stack := h.stack
  fits := h.fits
  returns := h.returns
  returns_le := h.returns_le

namespace Arrives

variable {σ : Type} {host : Host σ} {lenient : Prop} {E : Stop → Prop} {P Q : Session σ → Prop}
  {k : Nat} {s : Session σ} {site : Site} {v : View}

/-- **What one stretch of a run leads to, the next goes on from.** -/
theorem bind (h : Arrives host lenient E P k s)
    (hrest : ∀ k' ≤ k, ∀ s', P s' → Arrives host lenient E Q k' s') :
    Arrives host lenient E Q k s := by
  induction h with
  | here h => exact hrest _ (Nat.le_refl _) _ h
  | late h => exact .late h
  | ended hturn hhow => exact .ended hturn hhow
  | on hturn _ ih => exact .on hturn (ih fun k' hk' => hrest k' (by omega))

/-- **An instruction takes one turn.** -/
theorem moves (hs : Stands site s.machine v) {R : View → Prop}
    (hmoves : ∀ m, Stands site m v → Moves site m E R)
    (hrest : ∀ s' v', R v' → Stands site s'.machine v' → s'.host = s.host → s'.calls = s.calls →
      Arrives host lenient E P (k - 1) s') : Arrives host lenient E P k s := by
  have hout := (hmoves _ (hs.at_steps (s.machine.steps + 1))).outcome
  rcases turn_cases host E s with ⟨how, hturn, hhow⟩ | hturn
  · exact .ended hturn hhow
  generalize { s.machine with steps := s.machine.steps + 1 } = m at hout hturn
  cases hrun : step.run m with
  | error stop m' =>
    rw [hrun] at hout hturn
    exact .ended hturn (.stop hout)
  | ok signal m' =>
    rw [hrun] at hout hturn
    obtain ⟨rfl, v', hv', hstands⟩ := hout
    exact .on hturn (hrest _ v' hv' hstands rfl rfl)

/-- Several instructions take several turns. -/
theorem path {R : View → Prop} (hpath : Path site E R v) :
    ∀ {k : Nat} {s : Session σ}, Stands site s.machine v →
    (∀ k' ≤ k, ∀ s' v', R v' → Stands site s'.machine v' → s'.host = s.host →
      s'.calls = s.calls → Arrives host lenient E P k' s') → Arrives host lenient E P k s := by
  induction hpath with
  | done hv =>
    intro k s hs hrest
    exact hrest k (Nat.le_refl k) s _ hv hs rfl rfl
  | step hmoves _ ih =>
    intro k s hs hrest
    refine moves hs hmoves ?_
    intro s₁ v₁ hv₁ hs₁ hhost₁ hcalls₁
    refine ih v₁ hv₁ hs₁ ?_
    intro k' hk' s₂ v₂ hv₂ hs₂ hhost₂ hcalls₂
    exact hrest k' (by omega) s₂ v₂ hv₂ hs₂ (hhost₂.trans hhost₁) (hcalls₂.trans hcalls₁)

/-- **A system call is answered by the host**, whose answer is pushed. -/
theorem system_call (hs : Stands site s.machine v) (hE : ∀ {stop}, Stop.Exhausted stop → E stop)
    {rest : Bytes} {address : UInt16} {a x y : UInt8}
    (hcode : Occurs site.low v.pc [Opcode.systemCall.byte, 5])
    (hstack : v.stack = rest ++ (addressBytes address ++ [a, x, y]))
    (hfailure : ∀ here reason, (host.serve ⟨address, a, x, y⟩ s.host).1.failure = some reason →
      E (.fault (.systemCall here address reason)))
    (hrest : ∀ s', (host.serve ⟨address, a, x, y⟩ s.host).1.failure = none →
      Stands site s'.machine { v with
        pc := v.pc + 2, stack := rest ++ [(host.serve ⟨address, a, x, y⟩ s.host).1.a]
        above := [] } →
      s'.host = (host.serve ⟨address, a, x, y⟩ s.host).2 →
      s'.calls = s.calls.push ⟨⟨address, a, x, y⟩, (host.serve ⟨address, a, x, y⟩ s.host).1.a⟩ →
      Arrives host lenient E P (k - 1) s') : Arrives host lenient E P k s := by
  have hout := ((hs.at_steps (s.machine.steps + 1)).system_call (E := E) hcode hstack).outcome
  rcases turn_cases host E s with ⟨how, hturn, hhow⟩ | hturn
  · exact .ended hturn hhow
  generalize { s.machine with steps := s.machine.steps + 1 } = m at hout hturn
  cases hrun : step.run m with
  | error stop m' =>
    rw [hrun] at hout hturn
    exact .ended hturn (.stop hout)
  | ok signal m' =>
    rw [hrun] at hout hturn
    obtain ⟨rfl, hstands⟩ := hout
    have hpush := (@Stands.push site m' _ E v.pc hstands
      [(host.serve ⟨address, a, x, y⟩ s.host).1.a] fun _ => hE).outcome
    rw [follow, serve] at hturn
    simp only [show (traced s).host = s.host from rfl,
      show (traced s).calls = s.calls from rfl] at hturn
    cases hfail : (host.serve ⟨address, a, x, y⟩ s.host).1.failure with
    | some reason =>
      simp only [hfail] at hturn
      exact .ended hturn (.stop (hfailure v.pc reason hfail))
    | none =>
      simp only [hfail] at hturn
      cases hpushed : (push v.pc [(host.serve ⟨address, a, x, y⟩ s.host).1.a]).run m' with
      | error stop m'' =>
        rw [hpushed] at hpush
        simp only [hpushed] at hturn
        exact .ended hturn (.stop hpush)
      | ok _ m'' =>
        rw [hpushed] at hpush
        simp only [hpushed] at hturn
        exact .on hturn (hrest _ hfail hpush rfl rfl)

/-! ### From turns to runs -/

/-- A run that is followed for `k` turns. -/
theorem within (h : Arrives host lenient E P k s) :
    (loop host k s).2 = .unfinished ∨ Excused E (loop host k s).2 ∨
      ∃ k' s', P s' ∧ loop host k s = loop host k' s' := by
  induction h with
  | here h => exact Or.inr (Or.inr ⟨_, _, h, rfl⟩)
  | late _ => exact Or.inl rfl
  | @ended k s s' how hturn hhow =>
    rcases k with _ | k
    · exact Or.inl rfl
    · rw [loop_succ, hturn]
      exact Or.inr (Or.inl hhow)
  | @on k s s' hturn _ ih =>
    rcases k with _ | k
    · exact Or.inl rfl
    · rw [loop_succ, hturn]
      exact ih

/-- A run that is followed until it is over or arrives. -/
theorem outright (h : Arrives host False E P k s) :
    ∃ n, ∀ fuel, Excused E (loop host (n + 1 + fuel) s).2 ∨
      ∃ s', P s' ∧ loop host (n + 1 + fuel) s = loop host (1 + fuel) s' := by
  induction h with
  | here h => exact ⟨0, fun fuel => Or.inr ⟨_, h, by rw [Nat.zero_add]⟩⟩
  | late h => exact h.elim
  | ended hturn hhow =>
    refine ⟨0, fun fuel => Or.inl ?_⟩
    rw [Nat.zero_add, Nat.add_comm, loop_succ, hturn]
    exact hhow
  | @on k s s' hturn _ ih =>
    obtain ⟨n, hn⟩ := ih
    refine ⟨n + 1, fun fuel => ?_⟩
    have hsucc : n + 1 + 1 + fuel = n + 1 + fuel + 1 := by omega
    rw [hsucc, loop_succ, hturn]
    exact hn fuel

end Arrives

/-- The bytes on the stack of a machine. -/
theorem Stands.stack? {site : Site} {m : Machine} {v : View} (h : Stands site m v) :
    m.stack? = some v.stack := by
  have hheld := (Memory.holds_append.mp h.stack).1
  have hfits := h.fits
  have hsize := site.fits
  refine hheld.slice? ?_ h.bottom ?_
  · omega
  · rw [h.sp]

/-- **The end of the program ends the run**, with the bytes that are on the stack then. -/
theorem loop_halt {σ : Type} {host : Host σ} {s : Session σ} {site : Site} {v : View}
    {E : Stop → Prop} (hs : Stands site s.machine v)
    (hcode : Occurs site.low v.pc [Opcode.halt.byte]) (k : Nat) :
    Excused E (loop host (k + 1) s).2 ∨
      ∃ s', loop host (k + 1) s = (s', .finished v.stack) ∧
        Stands site s'.machine { v with pc := v.pc + 1 } ∧ s'.host = s.host ∧
        s'.calls = s.calls := by
  have hout := ((hs.at_steps (s.machine.steps + 1)).halt (E := fun _ => False) hcode).outcome
  rw [loop_succ]
  rcases turn_cases host E s with ⟨how, hturn, hhow⟩ | hturn
  · rw [hturn]
    exact Or.inl hhow
  generalize { s.machine with steps := s.machine.steps + 1 } = m at hout hturn
  rw [hturn]
  cases hrun : step.run m with
  | error stop m' =>
    rw [hrun] at hout
    exact hout.elim
  | ok signal m' =>
    rw [hrun] at hout
    obtain ⟨rfl, hstands⟩ := hout
    have hfinish : (finish { traced s with machine := m' }).2 = .finished v.stack := by
      simp only [finish, hstands.stack?]
    have hfinished : (finish { traced s with machine := m' }).1 =
        { traced s with machine := m', records := (traced s).records.push m'.finishedRecord } := by
      simp only [finish, hstands.stack?]
    refine Or.inr ⟨(finish { traced s with machine := m' }).1, ?_, ?_, ?_, ?_⟩
    · rw [follow, hfinish]
    · rw [hfinished]
      exact hstands
    · rw [hfinished]
      rfl
    · rw [hfinished]
      rfl

/-! ### Loading and running -/

/-- What a machine looks like that has loaded an image. -/
theorem Machine.load_eq {m loaded : Machine} {image : Image} (hload : m.load image = .ok loaded)
    (hstop : image.stop < 4611686018427387904) (hstack : m.config.stackSize ≤ 65536)
    (hdepth : m.config.callDepth ≤ 65536) :
    ∃ room depth : Nat, m.config.stackSize = room ∧ m.config.callDepth = depth ∧ 0 < room ∧
      0 < depth ∧ image.stop + room + 2 * depth ≤ memorySize ∧ loaded = { m with
        memory := Memory.zero.write image.base.toNat image.code
        stackBase := image.stop
        stackLimit := image.stop + (room : Int)
        loaded := true } := by
  have htwo : (addressSize : Int) = 2 := rfl
  have hfits := (fits_iff_of_load hload hstop).mpr ⟨hstack, hdepth⟩
  rw [hfits.load_eq] at hload
  cases hload
  obtain ⟨hroom, hcalls, hinside⟩ := hfits
  rw [stacksEnd, htwo] at hinside
  refine ⟨m.config.stackSize.toNat, m.config.callDepth.toNat, by omega, by omega, by omega,
    by omega, by omega, ?_⟩
  rw [withImage, wrap_eq_self (by omega) (by omega), Int.toNat_of_nonneg (by omega)]

/-- A run from `start` that is granted `fuel` instructions. -/
def Machine.runFor {σ : Type} (host : Host σ) (fuel : Nat) (start : UInt16) (s : Session σ) :
    Session σ × RunEnd :=
  if !s.machine.loaded then (s, .notLoaded)
  else match s.machine.ready? start with
    | none => (s, .crash)
    | some m => loop host fuel
        { s with machine := m, records := s.records.push (startedRecord start) }

theorem Machine.run_eq_runFor {σ : Type} (host : Host σ) (start : UInt16) (s : Session σ) :
    run host start s = runFor host patience start s := rfl

end Terrace
