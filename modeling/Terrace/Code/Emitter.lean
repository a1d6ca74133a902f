/-
# Emitted code

Code while it is being built: a sequence of items in which branches, returns and
stack reservations may still wait for what they point at. The emitter appends
items, patches those that wait, and can drop what was appended after a mark. An
operand that does not fit in a byte is noted and keeps the code from being
assembled. Patching an item of the wrong kind, or twice, is a misuse.

Key definitions: `Item`, `RangeError`, `Misuse`, `Emitter`, `Emit`, `Emit.mark`,
`Emit.truncate`, `Emit.target`, `Emit.fixReturns`, `Emit.patchReserve`.
-/
import Terrace.Code.Instruction
import Terrace.Code.Operator
import Terrace.Count

namespace Terrace

/-- A piece of code being built. -/
inductive Item where
  /-- An opcode with its operand bytes. -/
  | op (code : Opcode) (operands : Bytes)
  /-- The push of a constant. -/
  | literal (value : Bytes)
  /-- A branch to the item at `target`, conditional if `ifFalse`. -/
  | branch (ifFalse : Bool) (target : Option Nat)
  /-- A return that waits for the tail of its function. -/
  | exit
  /-- A call of the function whose code begins at item `entry`. -/
  | call (entry : Option Nat)
  /-- An allocation of stack space, of a size that may come later. -/
  | reserve (size : Option Int)
deriving DecidableEq, Repr

/-- Something that does not fit in a byte. -/
inductive RangeError where
  | operand (op : Opcode) (value : Int)
  | literal (length : Nat)
  | reservation (size : Int)
deriving DecidableEq, Repr

/-- The message of a range error. -/
def RangeError.message : RangeError → Bytes
  | .operand op value => op.name ++ " operand " ++ Bytes.decimalInt value ++ " out of range"
  | .literal length => "literal of " ++ Bytes.decimal length ++ " bytes is too long"
  | .reservation size => "stack reservation of " ++ Bytes.decimalInt size ++ " bytes out of range"

/-- A use of the emitter that its rules forbid. -/
inductive Misuse where
  | notBranch (i : Nat)
  | branchPatched (i : Nat)
  | notReservation (i : Nat)
  | reservationPatched (i : Nat)
  /-- A place that is no item. -/
  | outside
  | unknownBinary (symbol : Bytes)
  | unknownUnary (symbol : Bytes)
deriving DecidableEq, Repr

/-- The message of a misuse; a place that is no item has none. -/
def Misuse.message : Misuse → Option Bytes
  | .notBranch i => some ("codegen: instruction " ++ Bytes.decimal i ++ " is not a branch")
  | .branchPatched i => some ("codegen: branch " ++ Bytes.decimal i ++ " already patched")
  | .notReservation i => some ("codegen: instruction " ++ Bytes.decimal i ++ " is not a reservation")
  | .reservationPatched i => some ("codegen: reservation " ++ Bytes.decimal i ++ " already patched")
  | .outside => none
  | .unknownBinary symbol => some ("unknown operator " ++ symbol)
  | .unknownUnary symbol => some ("unknown unary operator " ++ symbol)

/-- Code being built. -/
structure Emitter where
  items : Array Item := #[]
  /-- The item where the program starts. -/
  start : Option Nat := none
  /-- The first range error, and the number of items when it was noted. -/
  pending : Option (RangeError × Nat) := none
  /-- The addresses of the items and of the end after the last assembly. -/
  addresses : Array Nat := #[]
deriving DecidableEq, Repr

/-- Work on an emitter; a misuse leaves the emitter as it is at that moment. -/
abbrev Emit := EStateM Misuse Emitter

/-- The place a number names: none below zero. -/
def place? (i : Int) : Option Nat := if i < 0 then none else some i.toNat

namespace Emit

/-- The number of items, to go back to. -/
def mark : Emit Nat := return (← get).items.size

/-- Drops the items after a mark, and a range error that was noted there. -/
def truncate (mark : Int) : Emit Unit := do
  let e ← get
  if mark < 0 then throw .outside
  let pending := match e.pending with
    | some (error, noted) => if mark ≤ noted then none else some (error, noted)
    | none => none
  set { e with items := e.items.take mark.toNat, pending }

/-- Notes a range error, unless there is one already. -/
def note (error : RangeError) : Emit Unit :=
  modify fun e => { e with pending := e.pending <|> some (error, e.items.size) }

/-- Appends an item and tells its place. -/
def append (item : Item) : Emit Nat :=
  modifyGet fun e => (e.items.size, { e with items := e.items.push item })

/-- Whether a number fits in a byte. -/
def fits (n : Int) : Bool := 0 ≤ n && n ≤ 255

/-- The low byte of a number. -/
def lowByte (n : Int) : UInt8 := (n % 256).toNat.toUInt8

/-- Appends an opcode with its operands. -/
def op (code : Opcode) (operands : List Int := []) : Emit Unit := do
  match operands.find? (!fits ·) with
  | some value => note (.operand code value)
  | none => pure ()
  let _ ← append (.op code (operands.map lowByte))

/-- Pushes a constant. -/
def literal (value : Bytes) : Emit Unit := do
  if 255 < value.length then note (.literal value.length)
  let _ ← append (.literal value)

/-- Pushes a variable. -/
def loadVariable (scope : Scope) (offset size : Int) : Emit Unit :=
  if size = 1 then op (.loadOne scope) [offset] else op (.load scope) [offset, size]

/-- Pops into a variable. -/
def storeVariable (scope : Scope) (offset size : Int) : Emit Unit :=
  if size = 1 then op (.assignOne scope) [offset] else op (.assign scope) [offset, size]

/-- Pushes the address of a variable. -/
def address (scope : Scope) (offset : Int) : Emit Unit := op (.addressOf scope) [offset]

/-- Replaces an address and an index by an element. -/
def loadIndexed (elementSize indexSize : Int) : Emit Unit := op .loadIndexed [elementSize, indexSize]

/-- Pops a value, an index and an address and stores the element. -/
def storeIndexed (elementSize indexSize : Int) : Emit Unit :=
  op .storeIndexed [elementSize, indexSize]

/-- Replaces an address by the bytes there. -/
def loadMemory (size : Int) : Emit Unit := op .loadMemory [size]

/-- Pops an address and a value to store there. -/
def storeMemory (size : Int) : Emit Unit := op .storeMemory [size]

/-- Combines the two values on top of the stack; operations on single bytes have a
shorter form. -/
def binary (operator : BinaryOp) (leftSize rightSize : Int) : Emit Unit :=
  match operator with
  | .compare c => if leftSize = 1 then op (.compareByte c) else op (.compare c) [leftSize]
  | .arithmetic a => if leftSize = 1 then op (.arithmeticByte a) else op (.arithmetic a) [leftSize]
  | .and => op .logicalAnd
  | .or => op .logicalOr
  | .bitwise b => op (.bitwise b) [leftSize, rightSize]
  | .shift d => op (.shift d) [leftSize]

/-- Combines two values by the operator with a sign. -/
def binarySymbol (symbol : Bytes) (leftSize rightSize : Int) : Emit Unit :=
  match BinaryOp.ofSymbol? symbol with
  | some operator => binary operator leftSize rightSize
  | none => throw (.unknownBinary symbol)

/-- Applies an operator to the value on top of the stack. -/
def unary (operator : UnaryOp) (size : Int) : Emit Unit :=
  match operator with
  | .not => op .logicalNot
  | .minus => op .minus [size]
  | .invert => op .bitwiseNot [size]

/-- Applies the operator with a sign. -/
def unarySymbol (symbol : Bytes) (size : Int) : Emit Unit :=
  match UnaryOp.ofSymbol? symbol with
  | some operator => unary operator size
  | none => throw (.unknownUnary symbol)

/-- Drops a value that is not used. -/
def discard (size : Int) : Emit Unit := if 0 < size then op .free [size] else pure ()

/-- A branch taken when the byte on the stack is false; it waits for its target. -/
def branchIfFalse : Emit Nat := append (.branch true none)

/-- A branch that waits for its target. -/
def branch : Emit Nat := append (.branch false none)

/-- A branch to a known place. -/
def branchTo (target : Int) : Emit Unit := do
  let _ ← append (.branch false (place? target))

/-- The item at a place. -/
def itemAt (i : Int) : Emit (Nat × Item) := do
  match place? i with
  | none => throw .outside
  | some i =>
    match (← get).items[i]? with
    | some item => return (i, item)
    | none => throw .outside

/-- Replaces the item at a place. -/
def replace (i : Nat) (item : Item) : Emit Unit :=
  modify fun e => { e with items := e.items.setIfInBounds i item }

/-- Points the waiting branch at place `i` to the next item. -/
def target (i : Int) : Emit Unit := do
  match ← itemAt i with
  | (i, .branch ifFalse none) => replace i (.branch ifFalse (some (← mark)))
  | (i, .branch _ (some _)) => throw (.branchPatched i)
  | (i, _) => throw (.notBranch i)

/-- Closes a loop: branches back to its head, and its exit leads here. -/
def endWhile (head exit : Int) : Emit Unit := do
  branchTo head
  target exit

/-- A return that waits for the tail of its function. -/
def exit : Emit Unit := do let _ ← append .exit

/-- Points the waiting returns from place `start` on to the next item. -/
def fixReturns (start : Int) : Emit Unit := do
  let e ← get
  let tail := e.items.size
  if start < 0 then throw .outside
  let patch (i : Nat) (item : Item) : Item :=
    if item = .exit && start ≤ i then .branch false (some tail) else item
  set { e with items := e.items.mapIdx patch }

/-- An allocation of stack space that waits for its size. -/
def reserve : Emit Nat := append (.reserve none)

/-- Sets the size of the reservation at place `i`. -/
def patchReserve (i size : Int) : Emit Unit := do
  match ← itemAt i with
  | (i, .reserve none) =>
    if !fits size then note (.reservation size)
    replace i (.reserve (some size))
  | (i, .reserve (some _)) => throw (.reservationPatched i)
  | (i, _) => throw (.notReservation i)

/-- Starts a function: the frame pointer is set to the first parameter, and space for
locals is reserved. Gives the place of the function and of the reservation. -/
def prologue (parameterSize : Int) : Emit (Nat × Nat) := do
  let entry ← mark
  op .enterFrame [parameterSize]
  return (entry, ← reserve)

/-- Ends a function: takes the frame down and leaves the result where the caller's
frame pointer was saved. -/
def epilogue (parameterSize localSize returnSize : Int) : Emit Unit := do
  op .free [wrap (parameterSize + localSize + returnSize)]
  op .popFrame
  if 0 < returnSize then op .copyValue [wrap (parameterSize + localSize), returnSize]
  op .functionReturn

/-- Saves the caller's frame pointer. -/
def pushFrame : Emit Unit := op .loadFrame

/-- Calls the function at place `entry`. -/
def call (entry : Int) : Emit Unit := do let _ ← append (.call (place? entry))

/-- Pops an argument block and pushes the result of a system call. -/
def systemCall (size : Int) : Emit Unit := op .systemCall [size]

/-- Makes the item at place `i` the start of the program. -/
def setStart (i : Int) : Emit Unit := modify fun e => { e with start := place? i }

/-- Ends the program. -/
def halt : Emit Unit := op .halt

end Emit

end Terrace
