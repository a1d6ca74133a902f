/-
# One instruction

`step` fetches the instruction at the program counter and executes it. What an
instruction did before it failed stays done, so the registers of a stopped
machine show how far it came. A system call only takes its arguments off the
stack here: serving it is the host's part.

Key definitions: `Exec`, `Signal`, `step`.
-/
import Terrace.Machine.Host
import Terrace.Machine.Number
import Terrace.Machine.State

namespace Terrace

/-- Work on a machine that may stop; the machine as it then is remains. -/
abbrev Exec := EStateM Stop Machine

/-- What an instruction leads to. -/
inductive Signal where
  /-- The next instruction. -/
  | next
  /-- The end of the program. -/
  | halted
  /-- A system call by the instruction at `here`, to be answered on the stack. -/
  | call (here : Int) (request : Request)
deriving DecidableEq, Repr

namespace Machine

/-- Stops with a fault. -/
def fail {α : Type} (fault : Fault) : Exec α := throw (.fault fault)

/-- A slice that memory has to have. -/
def slice (low high : Int) : Exec Bytes := do
  match (← get).memory.slice? low high with
  | some bytes => return bytes
  | none => throw .crash

/-- Writes bytes to a place in memory that `slice` found. -/
def store (address : Int) (bytes : Bytes) : Exec Unit :=
  modify fun m => { m with memory := m.memory.write address.toNat bytes }

/-- The next byte of the instruction at `here`. -/
def fetch (here : Int) : Exec UInt8 := do
  let pc := (← get).pc
  if (memorySize : Int) ≤ pc then fail (.invalidAccess here pc 1)
  else match (← get).memory.get? pc with
    | none => throw .crash
    | some b =>
      modify fun m => { m with pc := pc + 1 }
      return b

/-- The next byte as a number. -/
def fetchNat (here : Int) : Exec Nat := return (← fetch here).toNat

/-- The next two bytes as an address. -/
def fetchAddress (here : Int) : Exec Int := do
  let low ← fetch here
  let high ← fetch here
  return (addressOfBytes low high).toNat

/-- Continues at another address. -/
def jump (here target : Int) : Exec Unit :=
  if target < 0 || (memorySize : Int) ≤ target then fail (.invalidAccess here target 1)
  else modify fun m => { m with pc := target }

/-- The `count` bytes of memory at an address. -/
def read (here address : Int) (count : Nat) : Exec Bytes :=
  if address < 0 || (memorySize : Int) < wrap (address + count) then
    fail (.invalidAccess here address count)
  else slice address (wrap (address + count))

/-- Writes bytes to memory. -/
def write (here address : Int) (bytes : Bytes) : Exec Unit := do
  let _ ← read here address bytes.length
  store address bytes

/-- The `count` bytes at an address inside the value stack's room. -/
def frame (here address : Int) (count : Nat) : Exec Bytes := do
  let m ← get
  if address < m.stackBase || m.stackLimit < address + count then
    fail (.invalidAccess here address count)
  else slice address (address + count)

/-- Makes room on the value stack. -/
def allocate (here : Int) (count : Nat) : Exec Unit := do
  let m ← get
  if m.stackLimit < m.sp + count then fail (.stackOverflow here count m.stackLimit)
  else
    let _ ← slice m.sp (m.sp + count)
    modify fun m => { m with sp := m.sp + count }

/-- Pushes bytes. -/
def push (here : Int) (bytes : Bytes) : Exec Unit := do
  let sp := (← get).sp
  allocate here bytes.length
  store sp bytes

/-- Pushes the low 16 bits of an address. -/
def pushAddress (here address : Int) : Exec Unit :=
  push here [(address % 256).toNat.toUInt8, (address / 256 % 256).toNat.toUInt8]

/-- The top `count` bytes, which stay on the stack. -/
def top (here : Int) (count : Nat) : Exec Bytes := do
  let m ← get
  if m.sp - count < m.stackBase then fail (.stackUnderflow here count (m.sp - m.stackBase))
  else slice (m.sp - count) m.sp

/-- Takes the top `count` bytes off the stack. -/
def pop (here : Int) (count : Nat) : Exec Bytes := do
  let m ← get
  if m.sp - count < m.stackBase then fail (.stackUnderflow here count (m.sp - m.stackBase))
  else
    modify fun m => { m with sp := m.sp - count }
    slice (m.sp - count) m.sp

/-- Takes one byte off the stack. -/
def popByte (here : Int) : Exec UInt8 := return (← pop here 1).headD 0

/-- Takes a number of `count` bytes off the stack, as a signed 64-bit integer:
bytes beyond the eighth do not count. -/
def popNumber (here : Int) (count : Nat) : Exec Int :=
  return wrap (Number.value ((← pop here count).take 8))

/-- Replaces the top bytes of the stack. -/
def replaceTop (bytes : Bytes) : Exec Unit := do
  store ((← get).sp - bytes.length) bytes

/-- Pops a value into a variable. -/
def assign (here address : Int) (count : Nat) : Exec Unit := do
  let value ← pop here count
  let _ ← frame here address count
  store address value

/-- Sets one byte of the return stack. -/
def storeReturn (address : Int) (b : UInt8) : Exec Unit := do
  match (← get).memory.get? address with
  | some _ => store address [b]
  | none => throw .crash

/-- Puts a return address on the return stack. -/
def pushReturn (here address : Int) : Exec Unit := do
  let m ← get
  if m.config.callDepth ≤ m.rsp then fail (.tooManyCalls here m.config.callDepth)
  else
    let place := m.stackLimit + m.rsp * addressSize
    storeReturn place (address % 256).toNat.toUInt8
    storeReturn (place + 1) (address / 256 % 256).toNat.toUInt8
    modify fun m => { m with rsp := m.rsp + 1 }

/-- Takes a return address off the return stack. -/
def popReturn (here : Int) : Exec Int := do
  let m ← get
  if m.rsp = 0 then fail (.returnUnderflow here)
  else
    modify fun m => { m with rsp := m.rsp - 1 }
    let place := m.stackLimit + (m.rsp - 1) * addressSize
    match m.memory.get? place, m.memory.get? (place + 1) with
    | some low, some high => return (addressOfBytes low high).toNat
    | _, _ => throw .crash

/-- The address from which variables of a scope are counted. -/
def base (scope : Scope) : Exec Int := do
  let m ← get
  match scope with
  | .frame => return m.fp
  | .globals => return m.stackBase

/-- Replaces two values of a size by a truth byte. -/
def compare (here : Int) (comparison : Comparison) (size : Nat) : Exec Unit := do
  let b ← pop here size
  let a ← pop here size
  push here [Number.truth (Number.compare comparison a b)]

/-- Replaces two values of a size by their result. -/
def arithmetic (here : Int) (operation : Arithmetic) (size : Nat) : Exec Unit := do
  let b ← pop here size
  let a ← top here size
  match Number.arithmetic operation a b with
  | some result => replaceTop result
  | none => if Number.unbounded b = 0 then fail (.divisionByZero here) else throw .crash

/-- Replaces two truth bytes by a truth byte. -/
def logical (here : Int) (combine : Bool → Bool → Bool) : Exec Unit := do
  let b ← popByte here
  let a ← popByte here
  push here [Number.truth (combine (a != 0) (b != 0))]

/-- Takes the argument block of a system call off the stack: an address and up to
three register bytes, those missing being zero. -/
def arguments (here : Int) (size : Nat) : Exec Request := do
  if size < addressSize then fail (.shortArguments here size)
  else
    let block ← pop here size
    return {
      address := addressOfBytes (block.getD 0 0) (block.getD 1 0)
      a := block.getD 2 0
      x := block.getD 3 0
      y := block.getD 4 0 }

/-- Executes an opcode that leads to the next instruction. -/
def perform (here : Int) (op : Opcode) : Exec Unit := do
  match op with
  | .loadNumber =>
    let size ← fetchNat here
    push here (← read here (← get).pc size)
    modify fun m => { m with pc := m.pc + size }
  | .loadByte => push here [← fetch here]
  | .compare comparison => compare here comparison (← fetchNat here)
  | .compareByte comparison => compare here comparison 1
  | .arithmetic operation => arithmetic here operation (← fetchNat here)
  | .arithmeticByte operation => arithmetic here operation 1
  | .logicalAnd => logical here (· && ·)
  | .logicalOr => logical here (· || ·)
  | .logicalNot => push here [Number.truth ((← popByte here) == 0)]
  | .minus => replaceTop (Number.negate (← top here (← fetchNat here)))
  | .bitwiseNot => replaceTop (Number.invert (← top here (← fetchNat here)))
  | .bitwise operation =>
    let left ← fetchNat here
    let right ← fetchNat here
    let b ← pop here right
    let a ← pop here left
    push here (Number.bitwise operation a b)
  | .shift direction =>
    let size ← fetchNat here
    let amount ← popByte here
    replaceTop (Number.shift direction (← top here size) amount.toNat)
  | .branchForwardIfFalse =>
    let distance ← fetchNat here
    if (← popByte here) == 0 then jump here (here + distance)
  | .branchForward => jump here (here + (← fetchNat here))
  | .branchBackward => jump here (here - (← fetchNat here))
  | .jump => jump here (← fetchAddress here)
  | .jumpIfFalse =>
    let target ← fetchAddress here
    if (← popByte here) == 0 then jump here target
  | .load scope =>
    let offset ← fetchNat here
    let size ← fetchNat here
    push here (← frame here ((← base scope) + offset) size)
  | .assign scope =>
    let offset ← fetchNat here
    let size ← fetchNat here
    assign here ((← base scope) + offset) size
  | .loadOne scope =>
    let offset ← fetchNat here
    push here (← frame here ((← base scope) + offset) 1)
  | .assignOne scope =>
    let offset ← fetchNat here
    assign here ((← base scope) + offset) 1
  | .addressOf scope =>
    let offset ← fetchNat here
    pushAddress here ((← base scope) + offset)
  | .loadIndexed =>
    let element ← fetchNat here
    let indexSize ← fetchNat here
    let index ← popNumber here indexSize
    let start ← popNumber here addressSize
    push here (← read here (wrap (start + index * element)) element)
  | .storeIndexed =>
    let element ← fetchNat here
    let indexSize ← fetchNat here
    let value ← pop here element
    let index ← popNumber here indexSize
    let start ← popNumber here addressSize
    write here (wrap (start + index * element)) value
  | .loadMemory =>
    let size ← fetchNat here
    push here (← read here (← popNumber here addressSize) size)
  | .storeMemory =>
    let size ← fetchNat here
    let address ← popNumber here addressSize
    write here address (← pop here size)
  | .functionCall =>
    let target ← fetchAddress here
    pushReturn here (← get).pc
    jump here target
  | .functionReturn => jump here (← popReturn here)
  | .loadFrame => pushAddress here (← get).fp
  | .enterFrame =>
    let size ← fetchNat here
    let m ← get
    if m.sp - size < m.stackBase then fail (.stackUnderflow here size (m.sp - m.stackBase))
    else set { m with fp := m.sp - size }
  | .popFrame =>
    let address ← popNumber here addressSize
    modify fun m => { m with fp := address }
  | .allocate => allocate here (← fetchNat here)
  | .free => let _ ← pop here (← fetchNat here)
  | .copyValue =>
    let offset ← fetchNat here
    let size ← fetchNat here
    push here (← frame here ((← get).sp + offset + addressSize) size)
  | .halt | .systemCall => return

/-- Executes the opcode fetched at `here`. -/
def execute (here : Int) (op : Opcode) : Exec Signal := do
  match op with
  | .halt => return .halted
  | .systemCall => return .call here (← arguments here (← fetchNat here))
  | op =>
    perform here op
    return .next

/-- Executes the instruction at the program counter. -/
def step : Exec Signal := do
  let here := (← get).pc
  let b ← fetch here
  match Opcode.ofByte? b with
  | some op => execute here op
  | none => fail (.unknownOpcode here b)

end Machine

end Terrace
