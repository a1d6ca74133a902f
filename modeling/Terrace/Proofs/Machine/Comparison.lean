/-
# Comparisons are of numbers

A comparison takes two values of one width off the value stack and puts a truth byte in the place
of the first. It compares them from the most significant byte, which is the order of the numbers
they denote, so of "less", "equal" and "greater" one holds. The byte needs room: operands of any
width leave it, but where the operands have no bytes a full stack has none.

Key definitions: `Machine.Compared`, `comparing`.
Key theorems: `Machine.run_step`, `Machine.run_push`, `Machine.step_compare`,
`comparisons_numeric`.
-/
import Terrace.Proofs.Machine.Arithmetic

namespace Terrace

/-! ### Numbers -/

namespace Number

variable {a b : Bytes}

/-- The byte that a comparison leaves. -/
def verdict (a b : Bytes) (comparison : Comparison) : UInt8 := truth (compare comparison a b)

theorem verdict_equals (h : a.length = b.length) :
    verdict a b .equals = if value a = value b then 255 else 0 := by
  simp only [verdict, compare, truth, equal_iff h]

theorem verdict_notEquals (a b : Bytes) : verdict a b .notEquals = ~~~verdict a b .equals := by
  simp only [verdict, compare]
  cases equal a b <;> rfl

theorem verdict_lessThan (h : a.length = b.length) :
    verdict a b .lessThan = if value a < value b then 255 else 0 := by
  simp only [verdict, compare, truth, less_iff h]

theorem verdict_greaterThan (h : a.length = b.length) :
    verdict a b .greaterThan = if value b < value a then 255 else 0 := by
  simp only [verdict, compare, truth, less_iff h.symm]

end Number

/-! ### Pushes and steps -/

namespace Machine

variable {m : Machine} {here : Int} {a b bytes : Bytes} {comparison : Comparison}

theorem run_push (hlow : 0 ≤ m.sp) (hroom : m.sp + bytes.length ≤ m.stackLimit)
    (hin : m.sp + bytes.length ≤ memorySize) :
    (push here bytes).run m = .ok () { m with
      sp := m.sp + bytes.length, memory := m.memory.write m.sp.toNat bytes } := by
  have hslice : m.memory.slice? m.sp (m.sp + bytes.length) =
      some (m.memory.read m.sp.toNat (m.sp + bytes.length - m.sp).toNat) := by
    rw [Memory.slice?, if_pos ⟨hlow, by omega, hin⟩]
  unfold push allocate slice store
  rw [EStateM.run_bind, EStateM.run_get]
  dsimp only
  rw [EStateM.run_bind, EStateM.run_bind, EStateM.run_get]
  dsimp only
  rw [if_neg (not_lt.mpr hroom), EStateM.run_bind, EStateM.run_bind, EStateM.run_get]
  dsimp only
  rw [hslice]
  rfl

/-- A push without room changes nothing. -/
theorem run_push_full (hfull : m.stackLimit < m.sp + bytes.length) : (push here bytes).run m =
    .error (.fault (.stackOverflow here bytes.length m.stackLimit)) m := by
  unfold push allocate
  rw [EStateM.run_bind, EStateM.run_get]
  dsimp only
  rw [EStateM.run_bind, EStateM.run_bind, EStateM.run_get]
  dsimp only
  rw [if_pos hfull]
  rfl

/-- A step is the execution of the opcode at the program counter. -/
theorem run_step {op : Opcode} (hop : m.opcode? = some op) :
    step.run m = (execute m.pc op).run { m with pc := m.pc + 1 } := by
  obtain ⟨b, hb, hdecoded⟩ := Option.bind_eq_some_iff.mp hop
  unfold step
  rw [EStateM.run_bind, EStateM.run_get]
  dsimp only
  rw [EStateM.run_bind, run_fetch hb]
  dsimp only
  rw [hdecoded]

/-! ### Comparisons -/

/-- The operands are compared where they stand, and the byte is pushed. -/
theorem run_compare (h : m.Atop (a ++ b)) (hlength : a.length = b.length) :
    (compare here comparison a.length).run m =
      (push here [Number.verdict a b comparison]).run
        { m with sp := m.sp - (a ++ b).length } := by
  have hsp : m.sp - b.length - a.length = m.sp - (a ++ b).length := by
    rw [List.length_append]
    omega
  unfold compare
  rw [EStateM.run_bind]
  nth_rewrite 1 [hlength]
  rw [h.last.run_pop]
  dsimp only
  rw [EStateM.run_bind, h.below.run_pop]
  dsimp only
  rw [hsp, Number.verdict]

/-- The machine `m` has gone on behind a comparison, which left `verdict` in the place of the
operands. -/
structure Compared (m m' : Machine) (operands : Bytes) (verdict : UInt8) : Prop where
  sp : m'.sp = m.sp - operands.length + 1
  holds : m'.memory.Holds (m.sp.toNat - operands.length) [verdict]
  spared : ∀ i, i ≠ m.sp.toNat - operands.length →
    m'.memory.bytes[i]? = m.memory.bytes[i]?
  others : m' = { m with pc := m.pc + 2, sp := m'.sp, memory := m'.memory }

section Step

variable {size : UInt8} (h : m.Atop (a ++ b)) (hlength : a.length = b.length)
  (hop : m.opcode? = some (.compare comparison)) (hsize : m.memory.get? (m.pc + 1) = some size)
  (hwidth : size.toNat = a.length)

include h hlength hop hsize hwidth

theorem run_step_compare : step.run m =
    (do push m.pc [Number.verdict a b comparison]; return .next : Exec Signal).run
      { m with pc := m.pc + 2, sp := m.sp - (a ++ b).length } := by
  have hfetched : Atop { m with pc := m.pc + 1 + 1 } (a ++ b) :=
    ⟨h.bottom, h.above, h.inside, h.holds⟩
  have hcompare := @run_compare _ m.pc _ _ comparison hfetched hlength
  have hpc : m.pc + 1 + 1 = m.pc + 2 := by omega
  rw [run_step hop]
  show (do perform m.pc (.compare comparison); return .next : Exec Signal).run _ = _
  rw [EStateM.run_bind, EStateM.run_bind]
  unfold perform
  rw [EStateM.run_bind, run_fetchNat (m := { m with pc := m.pc + 1 }) hsize]
  dsimp only
  rw [hwidth, hcompare, hpc]

/-- **A comparison leaves its byte in the place of the operands.** -/
theorem step_compare (hm : m.InBounds) (hroom : 0 < a.length ∨ m.sp < m.stackLimit) :
    ∃ m', step.run m = .ok .next m' ∧
      Compared m m' (a ++ b) (Number.verdict a b comparison) := by
  have habove := h.above
  have hbottom := h.bottom
  have hinside := h.inside
  have hhigh := hm.sp.2
  have hlengths : (a ++ b).length = a.length + a.length := by rw [List.length_append, hlength]
  -- A byte of room above the operands lies on the stack, so it lies in memory.
  have hin : m.sp - (a ++ b).length + 1 ≤ memorySize := by
    rcases hroom with hbytes | hfree
    · omega
    · have hbyte := hm.inside m.sp.toNat (.inl ⟨by omega, by omega⟩)
      omega
  have hplace : (m.sp - (a ++ b).length).toNat = m.sp.toNat - (a ++ b).length := by omega
  have hpush := @run_push { m with pc := m.pc + 2, sp := m.sp - (a ++ b).length } m.pc
    [Number.verdict a b comparison] (by dsimp only; omega)
    (by dsimp only [List.length_singleton]; omega) hin
  dsimp only at hpush
  rw [List.length_singleton, hplace] at hpush
  refine ⟨{ m with
    pc := m.pc + 2, sp := m.sp - (a ++ b).length + 1
    memory := m.memory.write (m.sp.toNat - (a ++ b).length) [Number.verdict a b comparison] },
    ?_, rfl, Memory.holds_write ?_, fun i hi => Memory.write_getElem? ?_, rfl⟩
  · rw [run_step_compare h hlength hop hsize hwidth, EStateM.run_bind, hpush]
    rfl
  · rw [List.length_singleton]
    omega
  · rw [List.length_singleton]
    omega

/-- Without room for its byte a comparison stops the machine. -/
theorem step_compare_full (hnone : a.length = 0) (hfull : m.sp = m.stackLimit) :
    step.run m =
      .error (.fault (.stackOverflow m.pc 1 m.stackLimit)) { m with pc := m.pc + 2 } := by
  have hsp : m.sp - (a ++ b).length = m.sp := by
    rw [List.length_append, ← hlength, hnone]
    omega
  have hpush := @run_push_full { m with pc := m.pc + 2 } m.pc [Number.verdict a b comparison]
    (by dsimp only [List.length_singleton]; omega)
  rw [run_step_compare h hlength hop hsize hwidth, EStateM.run_bind, hsp, hpush]
  rfl

end Step

end Machine

open Machine

/-- **The comparisons are those of the numbers.** Values of one width compare as the numbers they
denote, so on whatever machine the two lie on top of the stack, one of the verdicts on "less",
"equal" and "greater" is 255 and the others are 0, and that on "not equal" is the complement of
that on "equal". The verdict takes the place of the operands, and nothing below it changes. It has
room unless the operands have no bytes and the stack is full. -/
theorem comparisons_numeric {a b : Bytes} (hlength : a.length = b.length) :
    (Number.less a b = true ↔ Number.value a < Number.value b) ∧
      (Number.equal a b = true ↔ Number.value a = Number.value b) ∧
      ∃ verdict : Comparison → UInt8,
        (Number.value a < Number.value b ∧
            verdict .lessThan = 255 ∧ verdict .equals = 0 ∧ verdict .greaterThan = 0 ∨
          Number.value a = Number.value b ∧
            verdict .lessThan = 0 ∧ verdict .equals = 255 ∧ verdict .greaterThan = 0 ∨
          Number.value b < Number.value a ∧
            verdict .lessThan = 0 ∧ verdict .equals = 0 ∧ verdict .greaterThan = 255) ∧
        verdict .notEquals = ~~~verdict .equals ∧
        ∀ (m : Machine) (size : UInt8) (comparison : Comparison), m.InBounds → m.Atop (a ++ b) →
          m.opcode? = some (.compare comparison) → m.memory.get? (m.pc + 1) = some size →
          size.toNat = a.length →
          (0 < a.length ∨ m.sp < m.stackLimit → ∃ m', step.run m = .ok .next m' ∧
            Compared m m' (a ++ b) (verdict comparison)) ∧
          (a.length = 0 → m.sp = m.stackLimit → step.run m =
            .error (.fault (.stackOverflow m.pc 1 m.stackLimit)) { m with pc := m.pc + 2 }) := by
  refine ⟨Number.less_iff hlength, Number.equal_iff hlength, Number.verdict a b, ?_,
    Number.verdict_notEquals a b, fun m size comparison hm h hop hsize hwidth =>
      ⟨step_compare h hlength hop hsize hwidth hm,
        step_compare_full h hlength hop hsize hwidth⟩⟩
  rw [Number.verdict_lessThan hlength, Number.verdict_equals hlength,
    Number.verdict_greaterThan hlength]
  rcases Nat.lt_trichotomy (Number.value a) (Number.value b) with hlt | heq | hgt
  · simp [hlt, Nat.ne_of_lt hlt, Nat.lt_asymm hlt]
  · simp [heq]
  · simp [hgt, Nat.ne_of_gt hgt, Nat.lt_asymm hgt]

/-- A machine about to compare two values of `size` bytes, with these bytes on its full stack. -/
def comparing (comparison : Comparison) (size : UInt8) (stack : Bytes) : Machine where
  memory := (Memory.zero.write 0 [(Opcode.compare comparison).byte, size]).write 2 stack
  stackBase := 2
  sp := 2 + stack.length
  fp := 2
  stackLimit := 2 + stack.length

section Comparing

variable {comparison : Comparison} {size : UInt8} {stack : Bytes}

theorem comparing_inBounds (hsmall : stack.length ≤ 255) :
    (comparing comparison size stack).InBounds := by
  have hmemory : (memorySize : Int) = 65536 := rfl
  refine InPlace.inBounds ⟨⟨?_, ?_, ?_, ?_, ?_, ?_, ?_, ?_⟩, ?_⟩
  all_goals
    dsimp only [comparing]
    omega

theorem comparing_holds (hsmall : stack.length ≤ 255) :
    (comparing comparison size stack).memory.Holds 2 stack := by
  refine Memory.holds_write ?_
  rw [memorySize]
  omega

theorem comparing_next : (comparing comparison size stack).opcode? = some (.compare comparison) ∧
    (comparing comparison size stack).memory.get? 1 = some size := by
  have hcode : (comparing comparison size stack).memory.Holds 0
      [(Opcode.compare comparison).byte, size] :=
    (Memory.holds_write (Nat.le_add_left 2 65534)).write (Or.inl (Nat.le_refl 2))
  have hop : (comparing comparison size stack).memory.get? (comparing comparison size stack).pc =
      some (Opcode.compare comparison).byte := @Memory.Holds.get? _ _ _ hcode 0 _ rfl
  refine ⟨?_, @Memory.Holds.get? _ _ _ hcode 1 _ rfl⟩
  rw [opcode?, hop, Option.bind_some]
  cases comparison <;> rfl

theorem comparing_atop (hsmall : stack.length ≤ 255) (below : Bytes) {operands : Bytes}
    (hstack : stack = below ++ operands) : (comparing comparison size stack).Atop operands := by
  have hmemory : (memorySize : Int) = 65536 := rfl
  have hholds := @comparing_holds comparison size _ hsmall
  subst hstack
  rw [List.length_append] at hsmall
  have hoperands := (Memory.holds_append.mp hholds).2
  refine ⟨Int.natCast_nonneg 2, ?_, ?_, ?_⟩
  · dsimp only [comparing]
    rw [List.length_append]
    omega
  · dsimp only [comparing]
    rw [List.length_append]
    omega
  · have hplace : (comparing comparison size (below ++ operands)).sp.toNat - operands.length =
        2 + below.length := by
      dsimp only [comparing]
      rw [List.length_append]
      omega
    rwa [hplace]

end Comparing

/-- 255 is below 32769, though its low byte is above that of 32769. -/
theorem comparisons_numeric_comparing : ∃ m',
    step.run (comparing .lessThan 2 [0xff, 0x00, 0x01, 0x80]) = .ok .next m' ∧
      Compared (comparing .lessThan 2 [0xff, 0x00, 0x01, 0x80]) m' [0xff, 0x00, 0x01, 0x80]
        255 := by
  obtain ⟨-, -, verdict, hnumbers, -, hsteps⟩ :=
    comparisons_numeric (a := [0xff, 0x00]) (b := [0x01, 0x80]) rfl
  have hless : verdict .lessThan = 255 := by
    rcases hnumbers with ⟨_, hless, _⟩ | ⟨heq, _⟩ | ⟨hgreater, _⟩
    · exact hless
    · exact absurd heq (by decide)
    · exact absurd hgreater (by decide)
  have hstep := (hsteps (comparing .lessThan 2 [0xff, 0x00, 0x01, 0x80]) 2 .lessThan
    (comparing_inBounds (by decide)) (comparing_atop (by decide) [] rfl)
    comparing_next.1 comparing_next.2 rfl).1 (Or.inl (by decide))
  rwa [hless] at hstep

/-- On a full stack two values of no bytes cannot be compared. -/
theorem comparing_nothing_overflows :
    (comparing .equals 0 [7]).InBounds ∧ (comparing .equals 0 [7]).Atop ([] ++ []) ∧
      (comparing .equals 0 [7]).opcode? = some (.compare .equals) ∧
      (comparing .equals 0 [7]).memory.get? 1 = some 0 ∧
      step.run (comparing .equals 0 [7]) =
        .error (.fault (.stackOverflow 0 1 3)) { comparing .equals 0 [7] with pc := 2 } := by
  have hatop : (comparing .equals 0 [7]).Atop ([] ++ []) := comparing_atop (by decide) [7] rfl
  refine ⟨comparing_inBounds (by decide), hatop, comparing_next.1, comparing_next.2, ?_⟩
  exact step_compare_full hatop rfl comparing_next.1 comparing_next.2 rfl rfl rfl

end Terrace
