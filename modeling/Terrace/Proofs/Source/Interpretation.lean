/-
# An interpreter of programs

What a program means, told with names and numbers. A variable is an unsigned number of a fixed
width that is found by its name, among the globals or among the variables of the current call;
which of the two a name means was settled when the program was read. Globals are zero at first,
locals hold nothing until something is assigned to them. Arguments are evaluated from left to
right and passed by value, a condition holds if it is not zero, a function that falls off its end
returns zero, and a system call is noted and gives what the host answers. No address and no byte
of memory is seen, so whatever depends on one is not covered.

The fuel bounds the calls inside each other and the turns of each loop.

Key definitions: `Value`, `State`, `Interp`, `Expression.eval`, `Statement.exec`, `callWithin`,
`Program.interpret`, `Program.isPlain`.
Key theorems: `UnaryOp.bytes_on`, `BinaryOp.apply_bytes`.
-/
import Mathlib.Logic.Function.Basic
import Terrace.Proofs.Source.Meaning

namespace Terrace

/-! ### Numbers of a fixed width -/

/-- An unsigned number of a fixed width in bytes. -/
structure Value where
  width : Nat
  number : Nat
  lt : number < 256 ^ width
deriving DecidableEq

namespace Value

/-- The number, cut to the width. -/
def ofNat (width n : Nat) : Value where
  width
  number := n % 256 ^ width
  lt := Nat.mod_lt _ (Nat.pow_pos (by decide))

/-- All bits set, or none. -/
def truth (b : Bool) : Value := ofNat 1 (if b then 255 else 0)

/-- The number that bytes denote, low byte first. -/
def ofBytes (bytes : Bytes) : Value where
  width := bytes.length
  number := Number.value bytes
  lt := Number.value_lt bytes

/-- The bytes of the number, low byte first. -/
def bytes (v : Value) : Bytes := Number.ofNat v.width v.number

end Value

/-- The number an operator gives. -/
def UnaryOp.on : UnaryOp → Value → Value
  | .not, a => .truth (a.number = 0)
  | .minus, a => .ofNat a.width (256 ^ a.width - a.number)
  | .invert, a => .ofNat a.width (256 ^ a.width - 1 - a.number)

/-- Whether two numbers compare so. -/
def Comparison.holds : Comparison → Nat → Nat → Bool
  | .equals, a, b => a = b
  | .notEquals, a, b => a ≠ b
  | .lessThan, a, b => a < b
  | .greaterThan, a, b => b < a

/-- The number an operator gives; none for a division by zero. -/
def BinaryOp.on : BinaryOp → Value → Value → Option Value
  | .compare c, a, b => some (.truth (c.holds a.number b.number))
  | .arithmetic .add, a, b => some (.ofNat a.width (a.number + b.number))
  | .arithmetic .subtract, a, b => some (.ofNat a.width (a.number + 256 ^ a.width - b.number))
  | .arithmetic .multiply, a, b => some (.ofNat a.width (a.number * b.number))
  | .arithmetic .divide, a, b =>
    if b.number = 0 then none else some (.ofNat a.width (a.number / b.number))
  | .and, a, b => some (.truth (a.number ≠ 0 && b.number ≠ 0))
  | .or, a, b => some (.truth (a.number ≠ 0 || b.number ≠ 0))
  | .bitwise o, a, b => some (.ofNat b.width (Number.bitwiseNat o a.number b.number))
  | .shift .left, a, b => some (.ofNat a.width (a.number * 2 ^ b.number))
  | .shift .right, a, b => some (.ofNat a.width (a.number / 2 ^ b.number))

/-! ### Numbers and their bytes -/

namespace Value

@[simp] theorem length_bytes (v : Value) : v.bytes.length = v.width := Number.length_ofNat _ _

@[simp] theorem value_bytes (v : Value) : Number.value v.bytes = v.number := by
  rw [bytes, Number.value_ofNat, Nat.mod_eq_of_lt v.lt]

@[simp] theorem bytes_ofBytes (bytes : Bytes) : (ofBytes bytes).bytes = bytes :=
  Number.ofNat_value bytes

@[simp] theorem bytes_ofNat (width n : Nat) : (ofNat width n).bytes = Number.ofNat width n :=
  Number.ofNat_mod width n

theorem bytes_zero (width : Nat) : (ofNat width 0).bytes = List.replicate width 0 := by
  rw [bytes_ofNat]
  induction width with
  | zero => rfl
  | succ width ih =>
    rw [Number.ofNat, Nat.zero_div, ih, List.replicate_succ]
    rfl

@[simp] theorem bytes_truth (b : Bool) : (truth b).bytes = [Number.truth b] := by
  cases b with
  | true => rfl
  | false => rfl

theorem bytes_one {v : Value} (h : v.width = 1) : v.bytes = [v.number.toUInt8] := by
  rw [bytes, h]
  rfl

theorem bytes_two {v : Value} (h : v.width = 2) : v.bytes = addressBytes v.number.toUInt16 := by
  rw [bytes, h, Number.ofNat, Number.ofNat, Number.ofNat, addressBytes]
  have hlow : v.number.toUInt8 = v.number.toUInt16.toUInt8 := by
    rw [← UInt8.toNat_inj, Number.toNat_toUInt8, UInt16.toNat_toUInt8]
    simp
  have hhigh : (v.number / 256).toUInt8 = (v.number.toUInt16 >>> 8).toUInt8 := by
    rw [← UInt8.toNat_inj, Number.toNat_toUInt8, UInt16.toNat_toUInt8, UInt16.toNat_shiftRight,
      Nat.shiftRight_eq_div_pow]
    simp
    omega
  rw [hlow, hhigh]

theorem headD_bytes {v : Value} (h : v.width = 1) : (v.bytes.headD 0).toNat = v.number := by
  have hlt := v.lt
  rw [h] at hlt
  rw [bytes_one h, List.headD_cons, Number.toNat_toUInt8]
  omega

theorem headD_beq_zero {v : Value} (h : v.width = 1) :
    (v.bytes.headD 0 == 0) = decide (v.number = 0) := by
  rw [Bool.eq_iff_iff, beq_iff_eq, decide_eq_true_eq, ← headD_bytes h, ← UInt8.toNat_inj]
  rfl

end Value

theorem UnaryOp.bytes_on {operator : UnaryOp} {a : Value} {shape : Shape}
    (h : unaryShape operator a.width = .ok shape) :
    (operator.on a).bytes = operator.apply a.bytes := by
  cases operator with
  | not =>
    have hone : a.width = 1 := Int.ofNat_inj.mp ((unaryShape_ok h).2 rfl)
    rw [UnaryOp.on, UnaryOp.apply, Value.bytes_truth, Value.headD_beq_zero hone]
  | minus =>
    rw [UnaryOp.on, UnaryOp.apply, Value.bytes_ofNat]
    refine (Number.eq_ofNat (by simp) ?_).symm
    rw [Number.value_negate, Value.length_bytes, Value.value_bytes]
  | invert =>
    rw [UnaryOp.on, UnaryOp.apply, Value.bytes_ofNat]
    refine (Number.eq_ofNat (by simp) ?_).symm
    rw [Number.value_invert, Value.length_bytes, Value.value_bytes, Nat.mod_eq_of_lt]
    have hpos : 0 < 256 ^ a.width := Nat.pow_pos (by decide)
    omega

theorem Comparison.compare_bytes (c : Comparison) {a b : Value} (h : a.width = b.width) :
    Number.compare c a.bytes b.bytes = c.holds a.number b.number := by
  have hlength : a.bytes.length = b.bytes.length := by simp [h]
  rw [Bool.eq_iff_iff]
  cases c with
  | equals => simp [Number.compare, holds, Number.equal_iff hlength]
  | notEquals =>
    simp [Number.compare, holds, ← Bool.not_eq_true, Number.equal_iff hlength]
  | lessThan => simp [Number.compare, holds, Number.less_iff hlength]
  | greaterThan => simp [Number.compare, holds, Number.less_iff hlength.symm]

theorem Arithmetic.arithmetic_bytes (o : Arithmetic) {a b : Value} (h : a.width = b.width) :
    Number.arithmetic o a.bytes b.bytes = ((BinaryOp.arithmetic o).on a b).map Value.bytes := by
  have hlength : a.bytes.length = b.bytes.length := by simp [h]
  cases o with
  | add =>
    rw [Number.arithmetic, BinaryOp.on, Option.map_some, Value.bytes_ofNat]
    refine congrArg some (Number.eq_ofNat (by simp [Number.length_add hlength]) ?_)
    rw [Number.value_add hlength, Value.length_bytes, Value.value_bytes, Value.value_bytes]
  | subtract =>
    rw [Number.arithmetic, BinaryOp.on, Option.map_some, Value.bytes_ofNat]
    refine congrArg some (Number.eq_ofNat (by simp [Number.length_subtract hlength]) ?_)
    rw [Number.value_subtract hlength, Value.length_bytes, Value.value_bytes, Value.value_bytes]
  | multiply =>
    rw [Number.arithmetic, BinaryOp.on, Option.map_some, Value.bytes_ofNat]
    refine congrArg some (Number.eq_ofNat (by simp [Number.length_multiply]) ?_)
    rw [Number.value_multiply hlength, Value.length_bytes, Value.value_bytes, Value.value_bytes]
  | divide =>
    rw [Number.arithmetic, Number.divide_eq, BinaryOp.on, Value.value_bytes, Value.value_bytes,
      Value.length_bytes]
    by_cases hzero : b.number = 0
    · rw [if_pos hzero, if_pos hzero, Option.map_none]
    · rw [if_neg hzero, if_neg hzero, Option.map_some, Value.bytes_ofNat]

/-- **Operators on numbers are those on their bytes.** -/
theorem BinaryOp.apply_bytes {operator : BinaryOp} {a b : Value} {shape : Shape}
    (h : binaryShape operator a.width b.width = .ok shape) :
    operator.apply a.bytes b.bytes = (operator.on a b).map Value.bytes := by
  have hshape := binaryShape_ok h
  cases operator with
  | compare c =>
    rw [BinaryOp.apply, BinaryOp.on, Option.map_some, Value.bytes_truth,
      c.compare_bytes (Int.ofNat_inj.mp hshape.1)]
  | arithmetic o => exact o.arithmetic_bytes (Int.ofNat_inj.mp hshape.1)
  | and =>
    rw [BinaryOp.apply, BinaryOp.on, Option.map_some, Value.bytes_truth, bne, bne,
      Value.headD_beq_zero (Int.ofNat_inj.mp hshape.1.1),
      Value.headD_beq_zero (Int.ofNat_inj.mp hshape.1.2), decide_not, decide_not]
  | or =>
    rw [BinaryOp.apply, BinaryOp.on, Option.map_some, Value.bytes_truth, bne, bne,
      Value.headD_beq_zero (Int.ofNat_inj.mp hshape.1.1),
      Value.headD_beq_zero (Int.ofNat_inj.mp hshape.1.2), decide_not, decide_not]
  | bitwise o =>
    rw [BinaryOp.apply, BinaryOp.on, Option.map_some, Value.bytes_ofNat]
    refine congrArg some (Number.eq_ofNat (by simp) ?_)
    rw [Number.value_bitwise, Value.length_bytes, Value.value_bytes, Value.value_bytes]
  | shift d =>
    have hamount := Value.headD_bytes (Int.ofNat_inj.mp hshape.1)
    cases d with
    | left =>
      rw [BinaryOp.apply, BinaryOp.on, Option.map_some, Value.bytes_ofNat, Number.shift,
        Number.shiftLeft_eq, hamount, Value.length_bytes, Value.value_bytes]
    | right =>
      rw [BinaryOp.apply, BinaryOp.on, Option.map_some, Value.bytes_ofNat, Number.shift,
        Number.shiftRight_eq, hamount, Value.length_bytes, Value.value_bytes]

/-! ### The interpreter -/

/-- Why a program is not interpreted to its end. -/
inductive Interruption where
  /-- The fuel is used up. -/
  | exhausted
  | divisionByZero
  /-- A local variable is read before anything was assigned to it. -/
  | unassigned (name : Bytes)
  /-- The host refuses a system call. -/
  | refused
  /-- Something that depends on addresses, or a function that is not there. -/
  | uncovered
deriving DecidableEq, Repr

/-- The variables by their names, the host and the system calls made. -/
structure State (σ : Type) where
  globals : Bytes → Value
  /-- The parameters and locals of the current call that have a value. -/
  locals : Bytes → Option Value
  host : σ
  calls : Array Call

/-- Work on a state that may be interrupted. -/
abbrev Interp (σ : Type) := StateT (State σ) (Except Interruption)

/-- What an interpretation relies on. -/
structure Interpreter (σ : Type) where
  host : Host σ
  /-- A call of a function with its arguments. -/
  invoke : Nat → List Value → Interp σ Value
  /-- The number of turns a loop may take. -/
  fuel : Nat

section
variable {σ : Type}

/-- The value of a variable. -/
def State.value? (s : State σ) (scope : Scope) (name : Bytes) : Option Value :=
  match scope with
  | .globals => some (s.globals name)
  | .frame => s.locals name

/-- The state with another value of a variable. -/
def State.assign (s : State σ) (scope : Scope) (name : Bytes) (v : Value) : State σ :=
  match scope with
  | .globals => { s with globals := Function.update s.globals name v }
  | .frame => { s with locals := Function.update s.locals name (some v) }

namespace Interp

/-- Reads a variable. -/
def read (place : Place) : Interp σ Value := do
  match (← get).value? place.scope place.slot.name with
  | some v => return v
  | none => throw (.unassigned place.slot.name)

/-- Assigns to a variable. -/
def write (place : Place) (v : Value) : Interp σ Unit :=
  modify (·.assign place.scope place.slot.name v)

/-- Makes a system call and notes it. -/
def serve (host : Host σ) (request : Request) : Interp σ Value := do
  let s ← get
  match host.serve request s.host with
  | (⟨_, some _⟩, _) => throw .refused
  | (⟨a, none⟩, state) =>
    set { s with host := state, calls := s.calls.push ⟨request, a⟩ }
    return .ofBytes [a]

/-- A condition holds if it is not zero. -/
def branch (condition : Interp σ Value) (yes no : Interp σ (Option Value)) :
    Interp σ (Option Value) := do
  if (← condition).number = 0 then no else yes

/-- Goes on, unless a value is returned. -/
def andThen (first next : Interp σ (Option Value)) : Interp σ (Option Value) := do
  match ← first with
  | some result => return some result
  | none => next

/-- A loop, for at most as many turns as the fuel. -/
def loop (condition : Interp σ Value) (body : Interp σ (Option Value)) :
    Nat → Interp σ (Option Value)
  | 0 => throw .exhausted
  | fuel + 1 => branch condition (body.andThen (loop condition body fuel)) (return none)

end Interp

mutual

/-- Evaluates an expression. -/
@[simp] def Expression.eval (w : Interpreter σ) : Expression → Interp σ Value
  | .literal value => return .ofBytes value
  | .load place => Interp.read place
  | .unary operator operand _ => return operator.on (← operand.eval w)
  | .binary operator left right _ _ => do
    let a ← left.eval w
    let b ← right.eval w
    match operator.on a b with
    | some v => return v
    | none => throw .divisionByZero
  | .call callee arguments => do w.invoke callee (← evalAll w arguments)
  | .systemCall address a x y => do
    let address ← address.eval w
    let a ← a.eval w
    let x ← x.eval w
    let y ← y.eval w
    Interp.serve w.host
      ⟨address.number.toUInt16, a.number.toUInt8, x.number.toUInt8, y.number.toUInt8⟩
  | .addressOf _ | .element .. | .loadMemory .. | .storeMemory .. => throw .uncovered

/-- Evaluates expressions from left to right. -/
@[simp] def evalAll (w : Interpreter σ) : List Expression → Interp σ (List Value)
  | [] => return []
  | e :: es => do
    let v ← e.eval w
    return v :: (← evalAll w es)

end

mutual

/-- Executes a statement; gives the value it returns, if it does. A return without a value
returns none of width. -/
@[simp] def Statement.exec (w : Interpreter σ) : Statement → Interp σ (Option Value)
  | .assign place value => do
    Interp.write place (← value.eval w)
    return none
  | .discard value _ => do
    let _ ← value.eval w
    return none
  | .ifThen condition body => Interp.branch (condition.eval w) (execBlock w body) (return none)
  | .ifElse condition body otherwise =>
    Interp.branch (condition.eval w) (execBlock w body) (execBlock w otherwise)
  | .whileLoop condition body => Interp.loop (condition.eval w) (execBlock w body) w.fuel
  | .giveBack none => return some (.ofNat 0 0)
  | .giveBack (some value) => return some (← value.eval w)
  | .assignElement .. => throw .uncovered

/-- Executes statements in order, up to one that returns. -/
@[simp] def execBlock (w : Interpreter σ) : List Statement → Interp σ (Option Value)
  | [] => return none
  | statement :: statements => (statement.exec w).andThen (execBlock w statements)

end

/-- The values of parameters by their names. -/
def bindings : List Variable → List Value → Bytes → Option Value
  | slot :: slots, v :: values => Function.update (bindings slots values) slot.name (some v)
  | _, _ => fun _ => none

section
variable (host : Host σ) (definitions : List Definition)

/-- Calls a function. -/
def callWithin : Nat → Nat → List Value → Interp σ Value
  | 0, _, _ => throw .exhausted
  | fuel + 1, callee, arguments => do
    match definitions[callee]? with
    | none => throw .uncovered
    | some d =>
      let caller ← get
      set { caller with locals := bindings d.function.parameters.slots arguments }
      let result ← execBlock { host, invoke := callWithin fuel, fuel } d.body
      modify fun s => { s with locals := caller.locals }
      return result.getD (.ofNat d.function.returnSize.toNat 0)

/-- What the main block of a program relies on, or that of a function. -/
def interpreter (fuel : Nat) : Interpreter σ where
  host
  invoke := callWithin host definitions fuel
  fuel

end

/-- What a program starts with: each global is a zero of its size. -/
def State.initial (program : Program) (host : σ) (calls : Array Call) : State σ where
  globals name := .ofNat (((program.globals.lookup? name).map (·.1.size.toNat)).getD 0) 0
  locals _ := none
  host
  calls

/-- **What a program leaves.** -/
def Program.interpret (program : Program) (host : Host σ) (fuel : Nat) (s : State σ) :
    Except Interruption (State σ) :=
  Prod.snd <$> (execBlock (interpreter host program.definitions fuel) program.main).run s

end

/-! ### Programs without addresses -/

mutual

/-- Whether an expression uses no element of an array and no address. -/
@[simp] def Expression.isPlain : Expression → Bool
  | .literal _ | .load _ => true
  | .unary _ operand _ => operand.isPlain
  | .binary _ left right _ _ => left.isPlain && right.isPlain
  | .call _ arguments => allPlain arguments
  | .systemCall address a x y => address.isPlain && a.isPlain && x.isPlain && y.isPlain
  | .addressOf _ | .element .. | .loadMemory .. | .storeMemory .. => false

@[simp] def allPlain : List Expression → Bool
  | [] => true
  | e :: es => e.isPlain && allPlain es

end

mutual

/-- Whether a statement uses no element of an array and no address. -/
@[simp] def Statement.isPlain : Statement → Bool
  | .assign _ value | .discard value _ | .giveBack (some value) => value.isPlain
  | .giveBack none => true
  | .ifThen condition body | .whileLoop condition body => condition.isPlain && blockPlain body
  | .ifElse condition body otherwise =>
    condition.isPlain && blockPlain body && blockPlain otherwise
  | .assignElement .. => false

@[simp] def blockPlain : List Statement → Bool
  | [] => true
  | statement :: statements => statement.isPlain && blockPlain statements

end

/-- Whether a program uses no element of an array and no address. An array parameter can only be
passed an address, so a function that has one is not called. -/
def Program.isPlain (program : Program) : Bool :=
  program.definitions.all (blockPlain ·.body) && blockPlain program.main

section
variable {program : Program} (h : program.isPlain = true)
include h

theorem Program.body_plain {callee : Nat} {d : Definition}
    (hd : program.definitions[callee]? = some d) : blockPlain d.body = true := by
  rw [Program.isPlain, Bool.and_eq_true, List.all_eq_true] at h
  exact h.1 d (List.mem_of_getElem? hd)

theorem Program.main_plain : blockPlain program.main = true := by
  rw [Program.isPlain, Bool.and_eq_true] at h
  exact h.2

end

end Terrace
