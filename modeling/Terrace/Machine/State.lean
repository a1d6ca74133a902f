/-
# The machine

Memory holds the code, right after it the value stack, and above that the return
stack. Globals are at the bottom of the value stack; functions reach their
parameters and locals from the frame pointer. Registers are 64-bit integers.

Key definitions: `Config`, `Machine`, `Machine.load`, `Machine.stack?`,
`Machine.peek`.
-/
import Terrace.Code.Image
import Terrace.Count
import Terrace.Machine.Fault
import Terrace.Machine.Memory
import Terrace.Text.Log

namespace Terrace

/-- The settings of a machine. -/
structure Config where
  /-- The size of the value stack in bytes. -/
  stackSize : Int := 1024
  /-- The number of return addresses the machine holds. -/
  callDepth : Int := 128
  /-- The number of instructions after which a run stops; none below one. -/
  maxSteps : Int := 0
  /-- Whether every instruction is reported. -/
  trace : Bool := false
deriving DecidableEq, Repr

/-- The size of an address on a stack. -/
def addressSize : Nat := 2

/-- A machine. -/
structure Machine where
  config : Config := {}
  memory : Memory := Memory.zero
  /-- The address of the next instruction. -/
  pc : Int := 0
  /-- The address of the next free byte of the value stack. -/
  sp : Int := 0
  /-- The frame pointer. -/
  fp : Int := 0
  /-- The number of return addresses held. -/
  rsp : Int := 0
  /-- The first byte of the value stack. -/
  stackBase : Int := 0
  /-- The first byte past the value stack, where the return stack begins. -/
  stackLimit : Int := 0
  loaded : Bool := false
  /-- The number of instructions of the last run. -/
  steps : Nat := 0

/-- What stops the work of the machine: a fault it reports, or what it takes to be
impossible, such as an access that leaves memory without having been checked. -/
inductive Stop where
  | fault (fault : Fault)
  | crash
deriving DecidableEq, Repr

namespace Machine

/-- The first byte past the return stack. -/
def returnLimit (m : Machine) : Int := wrap (m.stackLimit + wrap (m.config.callDepth * addressSize))

/-- Puts an image into memory and the stacks after it. All sums are 64-bit. -/
def load (m : Machine) (image : Image) : Except Fault Machine :=
  let limit := wrap (image.stop + m.config.stackSize)
  let top := wrap (limit + wrap (m.config.callDepth * addressSize))
  if m.config.stackSize ≤ 0 || m.config.callDepth ≤ 0 || (memorySize : Int) < top then
    .error (.outOfMemory image.code.length image.base m.config.stackSize m.config.callDepth)
  else .ok { m with
    memory := Memory.zero.write image.base.toNat image.code
    stackBase := image.stop
    stackLimit := limit
    loaded := true }

/-- The report of a loaded image. -/
def loadedRecord (m : Machine) (image : Image) : Record where
  level := .debug
  message := "Image loaded"
  attributes := [
    ("base", Bytes.address image.base.toNat),
    ("bytes", Bytes.decimal image.code.length),
    ("stack", Bytes.address m.stackBase ++ "-" ++ Bytes.address m.stackLimit)]

/-- The bytes on the value stack; none when the stack pointer is out of place. -/
def stack? (m : Machine) : Option Bytes := m.memory.slice? m.stackBase m.sp

/-- The `count` bytes of memory from `address` on. -/
def peek (m : Machine) (address count : Int) : Except Stop Bytes :=
  if address < 0 || count < 0 || (memorySize : Int) < wrap (address + count) then
    .error (.fault (.invalidPeek address count))
  else match m.memory.slice? address (wrap (address + count)) with
    | some bytes => .ok bytes
    | none => .error .crash

end Machine

end Terrace
