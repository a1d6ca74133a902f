/-
# Faults

Everything that stops the machine other than the end of the program. A fault
names its kind, carries what its message shows, and tells the address of the
instruction that failed when there is one.

Key definitions: `Fault`, `Fault.kind`, `Fault.address?`, `Fault.message`.
-/
import Terrace.Text.Bytes

namespace Terrace

/-- Why the machine stopped. -/
inductive Fault where
  /-- A push past the end of the value stack. -/
  | stackOverflow (here : Int) (need : Nat) (limit : Int)
  /-- A pop of more bytes than the value stack holds. -/
  | stackUnderflow (here : Int) (need : Nat) (available : Int)
  /-- More nested calls than the return stack holds. -/
  | tooManyCalls (here : Int) (depth : Int)
  /-- A return without a call. -/
  | returnUnderflow (here : Int)
  /-- An image that leaves no room for its stacks. -/
  | outOfMemory (size : Nat) (base : UInt16) (stackSize callDepth : Int)
  /-- An access outside the memory it may touch. -/
  | invalidAccess (here : Int) (address : Int) (size : Nat)
  /-- A look at memory from outside that leaves it. -/
  | invalidPeek (address size : Int)
  | divisionByZero (here : Int)
  | unknownOpcode (here : Int) (byte : UInt8)
  /-- The limit on the number of instructions is reached. -/
  | stepLimit (here : Int) (steps : Nat)
  /-- An argument block too short to hold an address. -/
  | shortArguments (here : Int) (size : Nat)
  /-- The host could not serve a system call. -/
  | systemCall (here : Int) (address : UInt16) (reason : Bytes)
  /-- A run before any image was loaded. -/
  | noImage
deriving DecidableEq, Repr

namespace Fault

/-- The name of the kind of a fault. -/
def kind : Fault → Bytes
  | .stackOverflow .. => "STACK_OVERFLOW"
  | .stackUnderflow .. => "STACK_UNDERFLOW"
  | .tooManyCalls .. => "CALL_DEPTH_EXCEEDED"
  | .returnUnderflow .. => "RETURN_STACK_UNDERFLOW"
  | .outOfMemory .. => "OUT_OF_MEMORY"
  | .invalidAccess .. | .invalidPeek .. | .noImage => "INVALID_ADDRESS"
  | .divisionByZero .. => "DIVISION_BY_ZERO"
  | .unknownOpcode .. => "UNKNOWN_OPCODE"
  | .stepLimit .. => "STEP_LIMIT_EXCEEDED"
  | .shortArguments .. | .systemCall .. => "SYSTEM_CALL_FAILED"

/-- The address of the instruction that failed. -/
def address? : Fault → Option Int
  | .stackOverflow here .. | .stackUnderflow here .. | .tooManyCalls here .. | .returnUnderflow here
  | .invalidAccess here .. | .divisionByZero here | .unknownOpcode here .. | .stepLimit here ..
  | .shortArguments here .. | .systemCall here .. => some here
  | .outOfMemory .. | .invalidPeek .. | .noImage => none

/-- What happened. -/
def words : Fault → Bytes
  | .stackOverflow _ need limit =>
    "stack overflow: " ++ Bytes.decimal need ++ " bytes needed, limit " ++ Bytes.address limit
  | .stackUnderflow _ need available =>
    "stack underflow: " ++ Bytes.decimal need ++ " bytes needed, " ++ Bytes.decimalInt available
      ++ " on the stack"
  | .tooManyCalls _ depth => "more than " ++ Bytes.decimalInt depth ++ " nested calls"
  | .returnUnderflow _ => "return without a call"
  | .outOfMemory size base stackSize callDepth =>
    "image of " ++ Bytes.decimal size ++ " bytes at " ++ Bytes.address base.toNat ++ " with "
      ++ Bytes.decimalInt stackSize ++ " bytes of stack and " ++ Bytes.decimalInt callDepth
      ++ " return addresses does not fit in memory"
  | .invalidAccess _ address size =>
    "access of " ++ Bytes.decimal size ++ " bytes at " ++ Bytes.address address
      ++ " is out of range"
  | .invalidPeek address size =>
    "access of " ++ Bytes.decimalInt size ++ " bytes at " ++ Bytes.address address
      ++ " is out of range"
  | .divisionByZero _ => "division by zero"
  | .unknownOpcode _ byte => "unknown opcode " ++ Bytes.decimal byte.toNat
  | .stepLimit _ steps => "stopped after " ++ Bytes.decimal steps ++ " instructions"
  | .shortArguments _ size => "argument block of " ++ Bytes.decimal size ++ " bytes has no address"
  | .systemCall _ address reason =>
    "system call " ++ Bytes.address address.toNat ++ ": " ++ reason
  | .noImage => "no image loaded"

/-- The message of a fault. -/
def message (fault : Fault) : Bytes :=
  "[" ++ fault.kind ++ "] " ++ fault.words ++
    match fault.address? with
    | some address => " at " ++ Bytes.address address
    | none => []

end Fault

end Terrace
