/-
# What a program does to its bytes

The effect of a program, told without a machine: variables are bytes of the globals or of
the frame of the current function, and values are byte strings. `e.ensures w s Q` says that
evaluating `e` goes well and leaves a store and a value as in `Q`, whatever is left open here:
the addresses of variables, the bytes found at an address and in fresh locals, and which of
the mishaps below happens. Going well includes that all sizes agree.

A mishap ends the execution early: the fuel is used up, a divisor is zero, an address is out
of range, the host refuses a call. Where the setting is lenient all of them are fine; where
it is not, `ensures` also says that none of them happens.

Stores at computed addresses are left out: they may change anything.

Key definitions: `Store`, `Place.Lies`, `Setting`, `Expression.ensures`,
`Statement.ensures`, `invoke`, `Program.ensures`.
-/
import Terrace.Machine.Run
import Terrace.Proofs.Machine.Number
import Terrace.Source.Parse.Expression

namespace Terrace

/-- What the code of a function works on. -/
structure Store (σ : Type) where
  globals : Bytes
  /-- The parameters and locals of the current function. -/
  frame : Bytes
  host : σ
  calls : Array Call

namespace Store

variable {σ : Type} (s : Store σ)

/-- The bytes of the variables of a scope. -/
def region : Scope → Bytes
  | .frame => s.frame
  | .globals => s.globals

/-- The store with other bytes for the variables of a scope. -/
def setRegion (bytes : Bytes) : Scope → Store σ
  | .frame => { s with frame := bytes }
  | .globals => { s with globals := bytes }

end Store

/-- The bytes of a region are those before a variable, its value and those after it. -/
structure Place.Lies (place : Place) (bytes before value after : Bytes) : Prop where
  split : bytes = before ++ value ++ after
  offset : place.offset = before.length
  size : place.slot.size = value.length
  pos : 0 < value.length
  small : before.length + value.length ≤ 255

/-- The value an operator gives. -/
def UnaryOp.apply : UnaryOp → Bytes → Bytes
  | .not, a => [Number.truth (a.headD 0 == 0)]
  | .minus, a => Number.negate a
  | .invert, a => Number.invert a

/-- The value an operator gives; none if the divisor is zero. -/
def BinaryOp.apply : BinaryOp → Bytes → Bytes → Option Bytes
  | .compare c, a, b => some [Number.truth (Number.compare c a b)]
  | .arithmetic o, a, b => Number.arithmetic o a b
  | .and, a, b => some [Number.truth (a.headD 0 != 0 && b.headD 0 != 0)]
  | .or, a, b => some [Number.truth (a.headD 0 != 0 || b.headD 0 != 0)]
  | .bitwise o, a, b => some (Number.bitwise o a b)
  | .shift d, a, b => some (Number.shift d a (b.headD 0).toNat)

/-- An operator in front of an operand leaves a value of the same size. -/
theorem unaryShape_ok {operator : UnaryOp} {size : Int} {shape : Shape}
    (h : unaryShape operator size = .ok shape) :
    shape = .scalar size ∧ (operator = .not → size = 1) := by
  unfold unaryShape at h
  split at h
  · cases h
  split at h
  · cases h
  next hone =>
    cases h
    refine ⟨rfl, fun hnot => ?_⟩
    simpa [hnot] using hone

/-- What the sizes of two operands have to be, and what an operator leaves then. -/
theorem binaryShape_ok {operator : BinaryOp} {left right : Int} {shape : Shape}
    (h : binaryShape operator left right = .ok shape) :
    match operator with
    | .compare _ => left = right ∧ shape = .scalar 1
    | .arithmetic _ => left = right ∧ shape = .scalar left
    | .and | .or => (left = 1 ∧ right = 1) ∧ shape = .scalar 1
    | .bitwise _ => shape = .scalar right
    | .shift _ => right = 1 ∧ shape = .scalar left := by
  unfold binaryShape at h
  split at h
  · cases h
  cases operator with
  | compare _ | arithmetic _ | shift _ =>
    dsimp only at h ⊢
    split at h
    · cases h
    next hsizes =>
      cases h
      exact ⟨not_not.mp hsizes, rfl⟩
  | and | or =>
    dsimp only at h ⊢
    split at h
    · cases h
    next hsizes =>
      cases h
      simp only [Bool.or_eq_true, decide_eq_true_eq, not_or, not_not] at hsizes
      exact ⟨hsizes, rfl⟩
  | bitwise _ =>
    cases h
    rfl

/-- Operands have a value. -/
theorem binaryShape_ne_zero {operator : BinaryOp} {left right : Int} {shape : Shape}
    (h : binaryShape operator left right = .ok shape) : left ≠ 0 ∧ right ≠ 0 := by
  unfold binaryShape at h
  split at h
  · cases h
  next hsizes => simpa using hsizes

theorem UnaryOp.length_apply {operator : UnaryOp} {a : Bytes} {shape : Shape}
    (h : unaryShape operator a.length = .ok shape) :
    ((operator.apply a).length : Int) = shape.size := by
  obtain ⟨rfl, hnot⟩ := unaryShape_ok h
  cases operator with
  | not => exact (hnot rfl).symm
  | minus => rw [UnaryOp.apply, Number.length_negate, Shape.scalar]
  | invert => rw [UnaryOp.apply, Number.length_invert, Shape.scalar]

theorem BinaryOp.length_apply {operator : BinaryOp} {a b value : Bytes} {shape : Shape}
    (h : binaryShape operator a.length b.length = .ok shape)
    (hvalue : operator.apply a b = some value) : (value.length : Int) = shape.size := by
  have hshape := binaryShape_ok h
  cases operator with
  | compare comparison =>
    cases hvalue
    rw [hshape.2]
    rfl
  | arithmetic operation =>
    have hlength := Number.length_arithmetic (by omega : a.length = b.length) hvalue
    rw [hshape.2, hlength]
    rfl
  | and | or =>
    cases hvalue
    rw [hshape.2]
    rfl
  | bitwise operation =>
    cases hvalue
    rw [hshape, Number.length_bitwise]
    rfl
  | shift direction =>
    cases hvalue
    rw [hshape.2, Number.length_shift]
    rfl

/-- What an expression may lead to. -/
abbrev Post (σ : Type) := Store σ → Bytes → Prop

/-- What an execution relies on. -/
structure Setting (σ : Type) where
  host : Host σ
  /-- Whether mishaps are fine. -/
  lenient : Prop
  /-- The number of functions that can be called. -/
  known : Nat
  /-- What a call of a function with these arguments ensures. -/
  invoke : Nat → Store σ → Bytes → Post σ → Prop
  /-- The number of turns a loop may take. -/
  fuel : Nat

variable {σ : Type}

/-- The address of a variable, or the address an array parameter holds. -/
def Place.ensuresAddress (place : Place) (s : Store σ) (Q : Bytes → Prop) : Prop :=
  if place.slot.isReference then
    place.slot.size = 2 ∧
      ∃ before value after, place.Lies (s.region place.scope) before value after ∧ Q value
  else ∀ address : UInt16, Q (addressBytes address)

/-- Bytes of a size are found at an address, or the address is out of range. -/
def Setting.ensuresRead (w : Setting σ) (size : Int) (s : Store σ) (Q : Post σ) : Prop :=
  w.lenient ∧ ∃ n : Nat, size = n ∧ n ≤ 255 ∧ ∀ value : Bytes, value.length = n → Q s value

/-- The host serves a system call. -/
def Store.ensuresReply (w : Setting σ) (request : Request) (s : Store σ) (Q : Post σ) : Prop :=
  match w.host.serve request s.host with
  | (⟨_, some _⟩, _) => w.lenient
  | (⟨a, none⟩, host) => Q { s with host, calls := s.calls.push ⟨request, a⟩ } [a]

mutual

/-- Evaluating an expression leaves a store and a value as in `Q`. -/
@[simp] def Expression.ensures (w : Setting σ) : Expression → Store σ → Post σ → Prop
  | .literal value, s, Q => Q s value
  | .load place, s, Q =>
    ∃ before value after, place.Lies (s.region place.scope) before value after ∧ Q s value
  | .addressOf place, s, Q => place.ensuresAddress s (Q s)
  | .element place index indexSize, s, Q =>
    place.ensuresAddress s fun _ => index.ensures w s fun s' i =>
      i.length = indexSize ∧ i.length ≤ 2 ∧ w.ensuresRead place.slot.elementSize s' Q
  | .unary operator operand size, s, Q =>
    operand.ensures w s fun s' a =>
      a.length = size ∧ a.length ≤ 255 ∧ (∃ shape, unaryShape operator size = .ok shape) ∧
        Q s' (operator.apply a)
  | .binary operator left right leftSize rightSize, s, Q =>
    left.ensures w s fun s₁ a => right.ensures w s₁ fun s₂ b =>
      a.length = leftSize ∧ b.length = rightSize ∧ a.length ≤ 255 ∧ b.length ≤ 255 ∧
        (∃ shape, binaryShape operator leftSize rightSize = .ok shape) ∧
          match operator.apply a b with
          | some value => Q s₂ value
          | none => w.lenient
  | .call callee arguments, s, Q =>
    callee < w.known ∧ ensuresAll w arguments s fun s' values => w.invoke callee s' values Q
  | .systemCall address a x y, s, Q =>
    address.ensures w s fun s₁ target => a.ensures w s₁ fun s₂ first =>
      x.ensures w s₂ fun s₃ second => y.ensures w s₃ fun s₄ third =>
        ∃ (place : UInt16) (a x y : UInt8), target = addressBytes place ∧ first = [a] ∧
          second = [x] ∧ third = [y] ∧ s₄.ensuresReply w ⟨place, a, x, y⟩ Q
  | .loadMemory size address, s, Q =>
    address.ensures w s fun s' start => start.length = 2 ∧ w.ensuresRead size s' Q
  | .storeMemory .., _, _ => False

/-- Evaluating expressions in order leaves a store and their values, one behind the other, as
in `Q`. -/
@[simp] def ensuresAll (w : Setting σ) : List Expression → Store σ → Post σ → Prop
  | [], s, Q => Q s []
  | e :: es, s, Q =>
    e.ensures w s fun s₁ first => ensuresAll w es s₁ fun s₂ rest => Q s₂ (first ++ rest)

end

/-- The value of a condition decides between two outcomes. -/
def decides (value : Bytes) (yes no : Prop) : Prop :=
  ∃ b : UInt8, value = [b] ∧ (b = 0 → no) ∧ (b ≠ 0 → yes)

/-- A loop: a turn decides whether there is another one. -/
def repeats (lenient : Prop) (turn : Store σ → (Store σ → Prop) → Prop) : Nat → Store σ → Prop
  | 0, _ => lenient
  | fuel + 1, s => turn s (repeats lenient turn fuel)

mutual

/-- Executing a statement leaves a store as in `Q`, or returns a value as in `R`. -/
@[simp] def Statement.ensures (w : Setting σ) :
    Statement → Store σ → (Store σ → Prop) → Post σ → Prop
  | .assign place value, s, Q, _ =>
    value.ensures w s fun s' new =>
      ∃ before old after, place.Lies (s'.region place.scope) before old after ∧
        old.length = new.length ∧ Q (s'.setRegion (before ++ new ++ after) place.scope)
  | .assignElement .., _, _, _ => False
  | .discard value size, s, Q, _ =>
    value.ensures w s fun s' dropped => dropped.length = size ∧ dropped.length ≤ 255 ∧ Q s'
  | .ifThen condition body, s, Q, R =>
    condition.ensures w s fun s' value =>
      decides value (ensuresBlock w body s' Q R) (Q s')
  | .ifElse condition body otherwise, s, Q, R =>
    condition.ensures w s fun s' value =>
      decides value (ensuresBlock w body s' Q R) (ensuresBlock w otherwise s' Q R)
  | .whileLoop condition body, s, Q, R =>
    repeats w.lenient (fun s again => condition.ensures w s fun s' value =>
      decides value (ensuresBlock w body s' again R) (Q s')) w.fuel s
  | .giveBack (some value), s, _, R => value.ensures w s R
  | .giveBack none, s, _, R => R s []

/-- Executing statements in order leaves a store as in `Q`, or returns a value as in `R`. -/
@[simp] def ensuresBlock (w : Setting σ) :
    List Statement → Store σ → (Store σ → Prop) → Post σ → Prop
  | [], s, Q, _ => Q s
  | statement :: statements, s, Q, R =>
    statement.ensures w s (fun s' => ensuresBlock w statements s' Q R) R

end

/-- The sizes of the parameters, of the locals and of the result of a function, which all fit
in its frame. -/
structure Definition.Frames (d : Definition) (p l r : Nat) : Prop where
  parameters : d.function.parameterSize = p
  locals : d.function.locals.totalSize = l
  result : d.function.returnSize = r
  fits : p + l + r ≤ 255

section
variable (host : Host σ) (lenient : Prop) (definitions : List Definition)

/-- A call of a function. Its locals may hold anything at first; it returns zeros when it falls
off its end. The fuel bounds the calls inside each other and the turns of each loop. -/
def invoke : Nat → Nat → Store σ → Bytes → Post σ → Prop
  | 0, _, _, _, _ => lenient
  | fuel + 1, callee, s, arguments, Q =>
    ∃ d p l r, definitions[callee]? = some d ∧ d.Frames p l r ∧ arguments.length = p ∧
      ∀ locals : Bytes, locals.length = l →
        ensuresBlock { host, lenient, known := callee + 1, invoke := invoke fuel, fuel } d.body
          { s with frame := arguments ++ locals }
          (fun s' => Q { s' with frame := s.frame } (List.replicate r 0))
          (fun s' result => result.length = r ∧ Q { s' with frame := s.frame } result)

/-- What the main block of a program relies on, or that of a function with as many functions
known. -/
def setting (known fuel : Nat) : Setting σ where
  host
  lenient
  known
  invoke := invoke host lenient definitions fuel
  fuel

end

/-- Executing the main block of a program leaves a store as in `Q`. -/
def Program.ensures (host : Host σ) (lenient : Prop) (program : Program) (fuel : Nat)
    (s : Store σ) (Q : Store σ → Prop) : Prop :=
  ensuresBlock (setting host lenient program.definitions program.definitions.length fuel)
    program.main s Q fun _ _ => False

end Terrace
