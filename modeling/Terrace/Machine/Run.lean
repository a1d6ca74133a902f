/-
# Runs

A run starts at an address with empty stacks and goes on until the program ends,
the machine stops, the limit on instructions is reached or the host calls the run
off, which is looked at before every 1024th instruction. Beside the way it ended,
a run leaves the system calls it made and the records it wrote.

Key definitions: `Call`, `Session`, `RunEnd`, `Machine.run`.
-/
import Terrace.Machine.Step

namespace Terrace

/-- A system call that was made, with the value it was answered. -/
structure Call where
  request : Request
  result : UInt8
deriving DecidableEq, Repr

/-- A machine with its host, the calls it made and the records it wrote. -/
structure Session (σ : Type) where
  machine : Machine
  host : σ
  calls : Array Call := #[]
  records : Array Record := #[]

/-- How a run ended. -/
inductive RunEnd where
  /-- The program ended and left these bytes on the value stack. -/
  | finished (stack : Bytes)
  | fault (fault : Fault)
  /-- No image was loaded. -/
  | notLoaded
  /-- The host called the run off. -/
  | cancelled
  /-- The machine's own bounds are broken. -/
  | crash
  /-- The run was given up after the number of instructions it was granted. -/
  | unfinished
deriving DecidableEq, Repr

namespace Machine

/-- The registers in front of the message of a fault in a run. -/
def registers (m : Machine) : Bytes :=
  "pc=" ++ Bytes.address m.pc ++ " sp=" ++ Bytes.address m.sp ++ " fp=" ++ Bytes.address m.fp
    ++ " rsp=" ++ Bytes.decimalInt m.rsp

/-- The message of a fault that stopped a run. -/
def faultMessage (m : Machine) (fault : Fault) : Bytes := m.registers ++ ": " ++ fault.message

/-- The message of a run that was called off. -/
def cancelMessage (m : Machine) : Bytes :=
  "run stopped at " ++ Bytes.address m.pc ++ ": context canceled"

/-- The report of the instruction about to be executed. -/
def stepRecord (m : Machine) : Option Record :=
  match m.memory.get? m.pc with
  | none => none
  | some b => some {
      level := .debug
      message := "Step"
      attributes := [
        ("pc", Bytes.address m.pc),
        ("op", Opcode.describe b),
        ("sp", Bytes.address m.sp),
        ("fp", Bytes.address m.fp)] }

/-- The report of a system call. -/
def callRecord (call : Call) : Record where
  level := .debug
  message := "System call"
  attributes := [
    ("addr", Bytes.address call.request.address.toNat),
    ("a", Bytes.decimal call.request.a.toNat),
    ("x", Bytes.decimal call.request.x.toNat),
    ("y", Bytes.decimal call.request.y.toNat),
    ("result", Bytes.decimal call.result.toNat)]

/-- The report of the end of a run. -/
def finishedRecord (m : Machine) : Record where
  level := .debug
  message := "VM finished"
  attributes := [
    ("steps", Bytes.decimal m.steps),
    ("stack", Bytes.decimalInt (m.sp - m.stackBase))]

/-- The report of the start of a run. -/
def startedRecord (start : UInt16) : Record where
  level := .debug
  message := "VM started"
  attributes := [("start", Bytes.address start.toNat)]

/-- Lets the host serve a call and pushes the answer. -/
def serve {σ : Type} (host : Host σ) (here : Int) (request : Request) (s : Session σ) :
    Session σ × Option Stop :=
  let (reply, state) := host.serve request s.host
  let call : Call := ⟨request, reply.a⟩
  let s := { s with host := state, calls := s.calls.push call }
  match reply.failure with
  | some reason => (s, some (.fault (.systemCall here request.address reason)))
  | none =>
    let s := { s with records := s.records.push (callRecord call) }
    match (push here [reply.a]).run s.machine with
    | .ok _ m => ({ s with machine := m }, none)
    | .error stop m => ({ s with machine := m }, some stop)

/-- How a run ends that stops. -/
def endOf : Stop → RunEnd
  | .fault fault => .fault fault
  | .crash => .crash

/-- How a run ends that reaches the end of the program. -/
def finish {σ : Type} (s : Session σ) : Session σ × RunEnd :=
  let s := { s with records := s.records.push s.machine.finishedRecord }
  match s.machine.stack? with
  | some stack => (s, .finished stack)
  | none => (s, .crash)

/-- Executes instructions until the run ends, at most `fuel` of them. -/
def loop {σ : Type} (host : Host σ) : Nat → Session σ → Session σ × RunEnd
  | 0, s => (s, .unfinished)
  | fuel + 1, s =>
    let steps := s.machine.steps
    if steps % 1024 = 0 && host.cancelled s.host then (s, .cancelled)
    else if 0 < s.machine.config.maxSteps && s.machine.config.maxSteps ≤ steps then
      (s, .fault (.stepLimit s.machine.pc steps))
    else
      let records := match s.machine.config.trace, s.machine.stepRecord with
        | true, some record => s.records.push record
        | _, _ => s.records
      match step.run { s.machine with steps := steps + 1 } with
      | .error stop m => ({ s with machine := m, records }, endOf stop)
      | .ok .halted m => finish { s with machine := m, records }
      | .ok .next m => loop host fuel { s with machine := m, records }
      | .ok (.call here request) m =>
        match serve host here request { s with machine := m, records } with
        | (s, some stop) => (s, endOf stop)
        | (s, none) => loop host fuel s

/-- A machine ready to run from `start`: empty stacks filled with zeros. None when
the stacks do not lie inside memory. -/
def ready? (m : Machine) (start : UInt16) : Option Machine :=
  match m.memory.slice? m.stackBase m.returnLimit with
  | none => none
  | some _ => some { m with
      memory := m.memory.clear m.stackBase.toNat (m.returnLimit - m.stackBase).toNat
      pc := start.toNat
      sp := m.stackBase
      fp := m.stackBase
      rsp := 0
      steps := 0 }

/-- More instructions than any run is waited for. -/
def patience : Nat := Nat.pow 2 62

/-- Runs the loaded image from `start`. -/
def run {σ : Type} (host : Host σ) (start : UInt16) (s : Session σ) : Session σ × RunEnd :=
  if !s.machine.loaded then (s, .notLoaded)
  else match s.machine.ready? start with
    | none => (s, .crash)
    | some m => loop host patience
        { s with machine := m, records := s.records.push (startedRecord start) }

end Machine

/-- The message of a run that did not finish; a crash has none. -/
def RunEnd.message (m : Machine) : RunEnd → Option Bytes
  | .fault cause => some (m.faultMessage cause)
  | .notLoaded => some Fault.noImage.message
  | .cancelled => some m.cancelMessage
  | .finished _ | .crash | .unfinished => none

end Terrace
