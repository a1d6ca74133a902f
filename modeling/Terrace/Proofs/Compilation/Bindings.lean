/-
# What the name of an array means

An access to an array starts with an address that lies on the stack while the index, and for an
assignment the value, is evaluated. The array is a variable of the code that runs, or a parameter
that some call has given the address of an array of the caller, which may be a parameter again. So
what the name means depends on the calls that are under way: `Program.Refers` follows it from call
to call to the bytes of a variable.

Stores at computed addresses may go anywhere, also over an address that an access has put on the
stack. A store is tame if it sets an element of an array, or else keeps to variables and to memory
that nothing lives in.

Key definitions: `Mark`, `Program.marks`, `PendingCall`, `Program.Refers`, `Program.Alterable`,
`Program.Describes`, `Program.StoresElement`, `Program.Tame`, `ReadsElement`, `WritesElement`,
`Program.Accesses`.
Key theorems: `Expression.marks_items`, `Statement.marks_items`.
-/
import Terrace.Proofs.Compilation.Simulation
import Terrace.Proofs.Machine.Confinement
import Terrace.Proofs.Source.Scoping

namespace Terrace

/-! ### Calls and accesses in the code -/

/-- An item that calls a function, or that loads or stores an element. -/
inductive Mark where
  | call (callee : Nat) (arguments : List Expression)
  | loads (place : Place) (indexSize : Int)
  | stores (place : Place) (indexSize : Int)

mutual

/-- The calls and accesses of an expression whose items start at `i`, with their items. -/
@[simp] def Expression.marks (entries : List Nat) (i : Nat) : Expression → List (Nat × Mark)
  | .literal _ | .load _ | .addressOf _ => []
  | .element place index indexSize =>
    index.marks entries (i + 1) ++
      [(i + 1 + (index.code entries).length, .loads place indexSize)]
  | .unary _ operand _ => operand.marks entries i
  | .binary _ left right _ _ =>
    left.marks entries i ++ right.marks entries (i + (left.code entries).length)
  | .call callee arguments =>
    marksAll entries (i + 1) arguments ++
      [(i + 1 + (codeAll entries arguments).length, .call callee arguments)]
  | .systemCall address a x y =>
    let first := i + (address.code entries).length
    let second := first + (a.code entries).length
    address.marks entries i ++ a.marks entries first ++ x.marks entries second ++
      y.marks entries (second + (x.code entries).length)
  | .loadMemory _ address => address.marks entries i
  | .storeMemory value _ address =>
    value.marks entries i ++ address.marks entries (i + (value.code entries).length)

/-- The calls and accesses of expressions. -/
@[simp] def marksAll (entries : List Nat) (i : Nat) : List Expression → List (Nat × Mark)
  | [] => []
  | e :: es => e.marks entries i ++ marksAll entries (i + (e.code entries).length) es

end

mutual

/-- The calls and accesses of a statement whose items start at `i`, with their items. -/
@[simp] def Statement.marks (entries : List Nat) (leave : Item) (i : Nat) :
    Statement → List (Nat × Mark)
  | .assign _ value | .discard value _ | .giveBack (some value) => value.marks entries i
  | .assignElement place index indexSize value =>
    let after := i + 1 + (index.code entries).length
    index.marks entries (i + 1) ++ value.marks entries after ++
      [(after + (value.code entries).length, .stores place indexSize)]
  | .ifThen condition body | .whileLoop condition body =>
    condition.marks entries i ++
      marksBlock entries leave (i + (condition.code entries).length + 1) body
  | .ifElse condition body otherwise =>
    let first := i + (condition.code entries).length + 1
    condition.marks entries i ++ marksBlock entries leave first body ++
      marksBlock entries leave (first + (blockCode entries leave first body).length + 1) otherwise
  | .giveBack none => []

/-- The calls and accesses of statements. -/
@[simp] def marksBlock (entries : List Nat) (leave : Item) (i : Nat) :
    List Statement → List (Nat × Mark)
  | [] => []
  | statement :: statements =>
    statement.marks entries leave i ++
      marksBlock entries leave (i + (statement.code entries leave i).length) statements

end

/-- The item of a call or an access. -/
def Mark.item (entries : List Nat) : Mark → Item
  | .call callee _ => .call (some (entries.getD callee 0 : Nat))
  | .loads place indexSize =>
    .op .loadIndexed [Emit.lowByte place.slot.elementSize, Emit.lowByte indexSize]
  | .stores place indexSize =>
    .op .storeIndexed [Emit.lowByte place.slot.elementSize, Emit.lowByte indexSize]

section
variable {items : List Item} {entries : List Nat}

mutual

/-- **Each call and each access of an expression has its item.** -/
theorem Expression.marks_items : (e : Expression) → ∀ {i : Nat}, Occurs items i (e.code entries) →
    ∀ mark ∈ e.marks entries i, items[mark.1]? = some (mark.2.item entries)
  | .literal _, i, _ | .load _, i, _ | .addressOf _, i, _ => by simp [Expression.marks]
  | .element place index indexSize, i, h => by
    obtain ⟨_, hindex, hload, _⟩ := occurs_element h
    rw [Emit.loadIndexed, Emit.code_op, occurs_singleton] at hload
    rw [Expression.marks, List.forall_mem_append, List.forall_mem_singleton]
    exact ⟨index.marks_items hindex, hload⟩
  | .unary _ operand _, i, h | .loadMemory _ operand, i, h => by
    rw [Expression.code, occurs_append] at h
    rw [Expression.marks]
    exact operand.marks_items h.1
  | .binary _ left right _ _, i, h | .storeMemory left _ right, i, h => by
    rw [Expression.code, occurs_append, occurs_append] at h
    rw [Expression.marks, List.forall_mem_append]
    exact ⟨left.marks_items h.1.1, right.marks_items h.1.2⟩
  | .call callee arguments, i, h => by
    obtain ⟨_, harguments, hcall, _⟩ := occurs_call h
    rw [Emit.code_call, occurs_singleton] at hcall
    rw [Expression.marks, List.forall_mem_append, List.forall_mem_singleton]
    exact ⟨marksAll_items arguments harguments, hcall⟩
  | .systemCall address a x y, i, h => by
    obtain ⟨_, _, _, _, rfl, rfl, rfl, rfl, haddress, ha, hx, hy, _⟩ := occurs_systemCall h
    rw [Expression.marks]
    simp only [List.forall_mem_append]
    exact ⟨⟨⟨address.marks_items haddress, a.marks_items ha⟩, x.marks_items hx⟩,
      y.marks_items hy⟩

theorem marksAll_items : (es : List Expression) → ∀ {i : Nat},
    Occurs items i (codeAll entries es) →
    ∀ mark ∈ marksAll entries i es, items[mark.1]? = some (mark.2.item entries)
  | [], i, _ => by simp [marksAll]
  | e :: es, i, h => by
    rw [codeAll, occurs_append] at h
    rw [marksAll, List.forall_mem_append]
    exact ⟨e.marks_items h.1, marksAll_items es h.2⟩

end

mutual

/-- **Each call and each access of a statement has its item.** -/
theorem Statement.marks_items {leave : Item} : (statement : Statement) → ∀ {i : Nat},
    Occurs items i (statement.code entries leave i) →
    ∀ mark ∈ statement.marks entries leave i, items[mark.1]? = some (mark.2.item entries)
  | .assign _ value, i, h | .discard value _, i, h | .giveBack (some value), i, h => by
    rw [Statement.code, occurs_append] at h
    rw [Statement.marks]
    exact value.marks_items h.1
  | .assignElement place index indexSize value, i, h => by
    obtain ⟨_, hindex, hvalue, hstore, _⟩ := occurs_assignElement h
    rw [Emit.storeIndexed, Emit.code_op, occurs_singleton] at hstore
    rw [Statement.marks, List.forall_mem_append, List.forall_mem_append, List.forall_mem_singleton]
    exact ⟨⟨index.marks_items hindex, value.marks_items hvalue⟩, hstore⟩
  | .ifThen condition body, i, h => by
    obtain ⟨_, _, rfl, rfl, hcondition, _, hbody, _⟩ := occurs_ifThen h
    rw [Statement.marks, List.forall_mem_append]
    exact ⟨condition.marks_items hcondition, marksBlock_items body hbody⟩
  | .whileLoop condition body, i, h => by
    obtain ⟨_, _, rfl, rfl, hcondition, _, hbody, _⟩ := occurs_whileLoop h
    rw [Statement.marks, List.forall_mem_append]
    exact ⟨condition.marks_items hcondition, marksBlock_items body hbody⟩
  | .ifElse condition body otherwise, i, h => by
    obtain ⟨_, _, _, rfl, rfl, rfl, hcondition, _, hbody, _, hother, _⟩ := occurs_ifElse h
    rw [Statement.marks, List.forall_mem_append, List.forall_mem_append]
    exact ⟨⟨condition.marks_items hcondition, marksBlock_items body hbody⟩,
      marksBlock_items otherwise hother⟩
  | .giveBack none, i, _ => by simp [Statement.marks]

theorem marksBlock_items {leave : Item} : (statements : List Statement) → ∀ {i : Nat},
    Occurs items i (blockCode entries leave i statements) →
    ∀ mark ∈ marksBlock entries leave i statements, items[mark.1]? = some (mark.2.item entries)
  | [], i, _ => by simp [marksBlock]
  | statement :: statements, i, h => by
    rw [blockCode, occurs_append] at h
    rw [marksBlock, List.forall_mem_append]
    exact ⟨statement.marks_items h.1, marksBlock_items statements h.2⟩

end

end

/-! ### Calls under way -/

/-- A call that has not returned yet: of which function, with which arguments, by which item, and
where the frame of the function lies. -/
structure PendingCall where
  callee : Nat
  definition : Definition
  arguments : List Expression
  item : Nat
  fp : Nat

namespace Program

variable (program : Program)

/-! The calls under way are listed with the last one first, which is the one that runs. -/

/-- The variables and functions that the code which runs finds. -/
def scene : List PendingCall → Scene
  | [] => program.mainScene
  | call :: _ => program.bodyScene call.callee call.definition

/-- The statements that run. -/
def running : List PendingCall → List Statement
  | [] => program.main
  | call :: _ => call.definition.body

/-- The places of the functions that the code which runs may call. -/
def known : List PendingCall → List Nat
  | [] => program.entries
  | call :: _ => program.entries.take (call.callee + 1)

/-- The calls and accesses of the code that runs. -/
def marks : List PendingCall → List (Nat × Mark)
  | [] => marksBlock program.entries .exit (program.start + 1) program.main
  | call :: _ =>
    let entry := program.entries.getD call.callee 0
    marksBlock (program.entries.take (call.callee + 1))
      (.branch false (some (call.definition.tail (program.entries.take call.callee) entry)))
      (entry + 2) call.definition.body

end Program

/-- The frame pointer, where `bottom` is the bottom of the stack. -/
def frameAt (bottom : Nat) : List PendingCall → Nat
  | [] => bottom
  | call :: _ => call.fp

/-- Where the variables of a scope lie. -/
def scopeAt (bottom : Nat) (calls : List PendingCall) : Scope → Nat
  | .globals => bottom
  | .frame => frameAt bottom calls

namespace Program

variable (program : Program) (bottom : Nat)

/-- The variable is an array parameter, and nothing that runs assigns another address to it. -/
def Kept (calls : List PendingCall) (place : Place) : Prop :=
  place.slot.isReference = true ∧ place ∉ assignedBlock (program.running calls)

/-- **What an array means**: the `size` bytes from `start` on. A variable means its own bytes, and
an array parameter that is kept what the array means that the call was given for it. -/
inductive Refers : List PendingCall → Place → Nat → Nat → Prop
  | own {calls : List PendingCall} {place : Place} (h : place.slot.isReference = false) :
    Refers calls place (scopeAt bottom calls place.scope + place.offset.toNat)
      place.slot.size.toNat
  | given {call : PendingCall} {calls : List PendingCall} {place array : Place}
    {j start size : Nat} (hkept : program.Kept (call :: calls) place)
    (hscope : place.scope = .frame)
    (hslot : call.definition.function.parameters.slots[j]? = some place.slot)
    (hoffset : place.offset = call.definition.function.parameters.offset j)
    (hgiven : call.arguments[j]? = some (.addressOf array)) (h : Refers calls array start size) :
    Refers (call :: calls) place start size

/-- The bytes of variables, of the code that runs or of one that waits for it. Array parameters
that are kept are not among them. -/
inductive Alterable : List PendingCall → Nat → Prop
  | own {calls : List PendingCall} {place : Place} {a : Nat}
    (hplace : place.Within ((program.scene calls).region place.scope))
    (hfree : ¬ program.Kept calls place)
    (hlow : scopeAt bottom calls place.scope + place.offset.toNat ≤ a)
    (hhigh : a < scopeAt bottom calls place.scope + place.offset.toNat + place.slot.size.toNat) :
    Alterable calls a
  | outer {call : PendingCall} {calls : List PendingCall} {a : Nat} (h : Alterable calls a) :
    Alterable (call :: calls) a

/-- The machine shows the calls: each was made by the code that waits for it, its return address is
on the return stack, and the frame pointer it found is saved below its frame. -/
def Shows (c : Assembly) (m : Machine) : List PendingCall → Prop
  | [] => True
  | call :: calls =>
    program.definitions[call.callee]? = some call.definition ∧
      (call.item, .call call.callee call.arguments) ∈ program.marks calls ∧
      m.memory.Holds (m.stackLimit.toNat + 2 * calls.length)
        (addressBytes (c.address (call.item + 1)).toUInt16) ∧
      m.memory.Holds (call.fp - 2) (addressBytes (frameAt m.stackBase.toNat calls).toUInt16) ∧
      Shows c m calls

/-- **These are the calls under way on the machine.** -/
structure Describes (c : Assembly) (m : Machine) (calls : List PendingCall) : Prop where
  fp : m.fp = frameAt m.stackBase.toNat calls
  rsp : m.rsp = calls.length
  calls : program.Shows c m calls

end Program

/-! ### Stores and accesses -/

open Machine

/-- No code lies at the address, no value on the stack and no return address that is in use. -/
def Machine.Vacant (m : Machine) (c : Assembly) (a : Nat) : Prop :=
  a < c.base.toNat ∨ (m.sp ≤ a ∧ (a : Int) < m.stackLimit) ∨ m.stackLimit + 2 * m.rsp ≤ a

variable {σ : Type} (host : Host σ)

/-- The machine is about to store a value into an element of an array that the code which runs can
name. -/
def Program.StoresElement (program : Program) (m : Machine) (calls : List PendingCall) : Prop :=
  ∃ place start size, place.Within ((program.scene calls).region place.scope) ∧
    program.Refers m.stackBase.toNat calls place start size ∧ ∃ rest index value : Bytes,
      m.stack? = some (rest ++ addressBytes start.toUInt16 ++ index ++ value) ∧
      (m.memory.read (m.pc.toNat + 1) 2).map UInt8.toNat = [value.length, index.length] ∧
      Number.value index * value.length + value.length ≤ size

/-- **If the next instruction stores at a computed address**, which is not that of an element, then
it changes no bytes but those of variables and vacant ones. -/
def Program.Tame (program : Program) (c : Assembly) (s : Session σ) : Prop :=
  ∀ calls, program.Describes c s.machine calls →
  s.machine.opcode? = some .storeMemory ∨
    s.machine.opcode? = some .storeIndexed ∧ ¬ program.StoresElement s.machine calls →
  ∀ s', turn host s = .on s' → ∀ a : Nat,
  s'.machine.memory.get? a ≠ s.machine.memory.get? a →
    program.Alterable s.machine.stackBase.toNat calls a ∨ s'.machine.Vacant c a

/-- The machine is about to load an element of the array at `start`; if the index is in bounds, it
replaces the address and the index by these bytes of the array, unless the run is called off or
the stack is full. -/
def ReadsElement (s : Session σ) (start size element : Nat) (indexSize : Int) : Prop :=
  ∃ rest index : Bytes,
    s.machine.stack? = some (rest ++ addressBytes start.toUInt16 ++ index) ∧
    (index.length : Int) = indexSize ∧
    (Number.value index * element + element ≤ size →
      (∃ s' how, turn host s = .ended s' how ∧ Excused Stop.Exhausted how) ∨
      ∃ s', turn host s = .on s' ∧ s'.machine.stack? = some (rest ++
        ((s.machine.memory.read start size).drop (Number.value index * element)).take element))

/-- The machine is about to store into an element of the array at `start`; if the index is in
bounds, it sets these bytes of the array to the value and changes no other byte of memory, unless
the run is called off, and takes the address, the index and the value off the stack. -/
def WritesElement (s : Session σ) (start size element : Nat) (indexSize : Int) : Prop :=
  ∃ rest index value : Bytes,
    s.machine.stack? = some (rest ++ addressBytes start.toUInt16 ++ index ++ value) ∧
    (index.length : Int) = indexSize ∧ value.length = element ∧
    (Number.value index * element + element ≤ size →
      (∃ s' how, turn host s = .ended s' how ∧ Excused (fun _ => False) how) ∨
      ∃ s', turn host s = .on s' ∧ s'.machine.sp = s.machine.stackBase + rest.length ∧
        s'.machine.fp = s.machine.fp ∧ s'.machine.rsp = s.machine.rsp ∧
        s'.machine.memory.read (start + Number.value index * element) element = value ∧
        ∀ a : Nat, a < start + Number.value index * element ∨
            start + Number.value index * element + element ≤ a →
          s'.machine.memory.get? a = s.machine.memory.get? a)

/-- **An indexed instruction belongs to an access** of the code that runs, and works on the array
that the access names, whatever calls are under way. -/
structure Program.Accesses (program : Program) (c : Assembly) (s : Session σ) : Prop where
  loads : s.machine.opcode? = some .loadIndexed → ∃ calls i place indexSize,
    program.Describes c s.machine calls ∧ s.machine.pc = c.address i ∧
    (i, .loads place indexSize) ∈ program.marks calls ∧
    ∀ start size, program.Refers s.machine.stackBase.toNat calls place start size →
      ReadsElement host s start size place.slot.elementSize.toNat indexSize
  stores : s.machine.opcode? = some .storeIndexed → ∃ calls i place indexSize,
    program.Describes c s.machine calls ∧ s.machine.pc = c.address i ∧
    (i, .stores place indexSize) ∈ program.marks calls ∧
    ∀ start size, program.Refers s.machine.stackBase.toNat calls place start size →
      WritesElement host s start size place.slot.elementSize.toNat indexSize

end Terrace
