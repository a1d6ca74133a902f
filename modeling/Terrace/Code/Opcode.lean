/-
# The instruction set

Every instruction is one opcode byte followed by its operands; operands of more
than one byte are little-endian. Opcodes come in families: comparisons and
arithmetic exist for any operand size and, with a shorter encoding, for single
bytes; variable accesses exist for the frame and for the globals.

Key definitions: `Opcode`, `Opcode.byte`, `Opcode.ofByte?`, `Opcode.name`,
`Opcode.operands`, `Opcode.lookup?`.
-/
import Terrace.Text.Bytes

namespace Terrace

/-- The four comparisons. -/
inductive Comparison where
  | equals
  | notEquals
  | lessThan
  | greaterThan
deriving DecidableEq, Repr

/-- The four arithmetic operations. -/
inductive Arithmetic where
  | add
  | subtract
  | multiply
  | divide
deriving DecidableEq, Repr

/-- The three bitwise operations on two values. -/
inductive Bitwise where
  | and
  | or
  | xor
deriving DecidableEq, Repr

/-- The direction of a shift. -/
inductive Direction where
  | left
  | right
deriving DecidableEq, Repr

/-- Where a variable lives: in the frame of the running function or among the globals. -/
inductive Scope where
  | frame
  | globals
deriving DecidableEq, Repr

/-- How an operand is laid out. -/
inductive OperandKind where
  /-- One unsigned byte. -/
  | byte
  /-- One byte of branch distance, counted from the branch opcode. -/
  | distance
  /-- Two bytes of absolute address. -/
  | address
  /-- A size byte and that many bytes. -/
  | sized
deriving DecidableEq, Repr

/-- The opcodes. -/
inductive Opcode where
  /-- Stops the program. -/
  | halt
  /-- Pushes a literal of any size. -/
  | loadNumber
  /-- Pushes a one byte literal. -/
  | loadByte
  /-- Pops two values of a size and pushes 255 or 0. -/
  | compare (comparison : Comparison)
  /-- Compares two bytes. -/
  | compareByte (comparison : Comparison)
  /-- Pops two values of a size and pushes one of that size. -/
  | arithmetic (operation : Arithmetic)
  /-- Arithmetic on two bytes. -/
  | arithmeticByte (operation : Arithmetic)
  | logicalAnd
  | logicalOr
  | logicalNot
  /-- Negates a two's complement value. -/
  | minus
  /-- Inverts every bit. -/
  | bitwiseNot
  /-- Combines two values of their own sizes; the result has the second size. -/
  | bitwise (operation : Bitwise)
  /-- Shifts a value by a one byte amount. -/
  | shift (direction : Direction)
  | branchForwardIfFalse
  | branchForward
  | branchBackward
  | jump
  | jumpIfFalse
  /-- Pushes a variable. -/
  | load (scope : Scope)
  /-- Pops into a variable. -/
  | assign (scope : Scope)
  | loadOne (scope : Scope)
  | assignOne (scope : Scope)
  /-- Pushes the address of a variable. -/
  | addressOf (scope : Scope)
  /-- Pops an index and a base address and pushes an element. -/
  | loadIndexed
  /-- Pops a value, an index and a base address. -/
  | storeIndexed
  /-- Pops an address and pushes the bytes there. -/
  | loadMemory
  /-- Pops an address and a value to write there. -/
  | storeMemory
  | functionCall
  | functionReturn
  /-- Pushes the frame pointer. -/
  | loadFrame
  /-- Sets the frame pointer below the parameters on the stack. -/
  | enterFrame
  /-- Pops the frame pointer. -/
  | popFrame
  | allocate
  | free
  /-- Pushes a value that lies above the stack top. -/
  | copyValue
  /-- Pops an argument block and pushes the result of a system call. -/
  | systemCall
deriving DecidableEq, Repr

namespace Opcode

/-- Every opcode, in the order of their bytes. -/
def all : List Opcode := [
  .halt, .loadNumber, .loadByte,
  .compare .equals, .compare .notEquals, .compare .lessThan, .compare .greaterThan,
  .compareByte .equals, .compareByte .notEquals, .compareByte .lessThan, .compareByte .greaterThan,
  .arithmetic .add, .arithmetic .subtract, .arithmetic .multiply, .arithmetic .divide,
  .arithmeticByte .add, .arithmeticByte .subtract, .arithmeticByte .multiply,
  .arithmeticByte .divide,
  .logicalAnd, .logicalOr, .logicalNot, .minus, .bitwiseNot,
  .bitwise .and, .bitwise .or, .bitwise .xor, .shift .left, .shift .right,
  .branchForwardIfFalse, .branchForward, .branchBackward, .jump, .jumpIfFalse,
  .load .frame, .load .globals, .assign .frame, .assign .globals,
  .loadOne .frame, .loadOne .globals, .assignOne .frame, .assignOne .globals,
  .addressOf .frame, .addressOf .globals,
  .loadIndexed, .storeIndexed, .loadMemory, .storeMemory,
  .functionCall, .functionReturn, .loadFrame, .enterFrame, .popFrame,
  .allocate, .free, .copyValue, .systemCall]

/-- The opcode's place in the order of opcodes. -/
def number : Opcode → Nat
  | .halt => 0
  | .loadNumber => 1
  | .loadByte => 2
  | .compare .equals => 3
  | .compare .notEquals => 4
  | .compare .lessThan => 5
  | .compare .greaterThan => 6
  | .compareByte .equals => 7
  | .compareByte .notEquals => 8
  | .compareByte .lessThan => 9
  | .compareByte .greaterThan => 10
  | .arithmetic .add => 11
  | .arithmetic .subtract => 12
  | .arithmetic .multiply => 13
  | .arithmetic .divide => 14
  | .arithmeticByte .add => 15
  | .arithmeticByte .subtract => 16
  | .arithmeticByte .multiply => 17
  | .arithmeticByte .divide => 18
  | .logicalAnd => 19
  | .logicalOr => 20
  | .logicalNot => 21
  | .minus => 22
  | .bitwiseNot => 23
  | .bitwise .and => 24
  | .bitwise .or => 25
  | .bitwise .xor => 26
  | .shift .left => 27
  | .shift .right => 28
  | .branchForwardIfFalse => 29
  | .branchForward => 30
  | .branchBackward => 31
  | .jump => 32
  | .jumpIfFalse => 33
  | .load .frame => 34
  | .load .globals => 35
  | .assign .frame => 36
  | .assign .globals => 37
  | .loadOne .frame => 38
  | .loadOne .globals => 39
  | .assignOne .frame => 40
  | .assignOne .globals => 41
  | .addressOf .frame => 42
  | .addressOf .globals => 43
  | .loadIndexed => 44
  | .storeIndexed => 45
  | .loadMemory => 46
  | .storeMemory => 47
  | .functionCall => 48
  | .functionReturn => 49
  | .loadFrame => 50
  | .enterFrame => 51
  | .popFrame => 52
  | .allocate => 53
  | .free => 54
  | .copyValue => 55
  | .systemCall => 56

/-- The byte that encodes an opcode. -/
def byte (op : Opcode) : UInt8 := op.number.toUInt8

/-- The opcodes by number. -/
def table : Array Opcode := all.toArray

/-- The opcode a byte encodes. -/
def ofByte? (b : UInt8) : Option Opcode := table[b.toNat]?

/-- The name of an opcode, which is also the name of its routine in a routine library. -/
def name : Opcode → Bytes
  | .halt => "end"
  | .loadNumber => "load_number"
  | .loadByte => "load_byte"
  | .compare .equals => "compare_equals"
  | .compare .notEquals => "compare_not_equals"
  | .compare .lessThan => "compare_less_than"
  | .compare .greaterThan => "compare_greater_than"
  | .compareByte .equals => "compare_equals_byte"
  | .compareByte .notEquals => "compare_not_equals_byte"
  | .compareByte .lessThan => "compare_less_than_byte"
  | .compareByte .greaterThan => "compare_greater_than_byte"
  | .arithmetic .add => "add"
  | .arithmetic .subtract => "subtract"
  | .arithmetic .multiply => "multiply"
  | .arithmetic .divide => "divide"
  | .arithmeticByte .add => "add_byte"
  | .arithmeticByte .subtract => "subtract_byte"
  | .arithmeticByte .multiply => "multiply_byte"
  | .arithmeticByte .divide => "divide_byte"
  | .logicalAnd => "logical_and"
  | .logicalOr => "logical_or"
  | .logicalNot => "logical_not"
  | .minus => "minus"
  | .bitwiseNot => "bitwise_not"
  | .bitwise .and => "bitwise_and"
  | .bitwise .or => "bitwise_or"
  | .bitwise .xor => "bitwise_eor"
  | .shift .left => "left_shift"
  | .shift .right => "right_shift"
  | .branchForwardIfFalse => "branch_forward_if_false"
  | .branchForward => "branch_forward"
  | .branchBackward => "branch_backward"
  | .jump => "jump"
  | .jumpIfFalse => "jump_if_false"
  | .load .frame => "load_local"
  | .load .globals => "load_global"
  | .assign .frame => "assign_local"
  | .assign .globals => "assign_global"
  | .loadOne .frame => "load_local_byte"
  | .loadOne .globals => "load_global_byte"
  | .assignOne .frame => "assign_local_byte"
  | .assignOne .globals => "assign_global_byte"
  | .addressOf .frame => "local_address"
  | .addressOf .globals => "global_address"
  | .loadIndexed => "load_indexed"
  | .storeIndexed => "store_indexed"
  | .loadMemory => "load_memory"
  | .storeMemory => "store_memory"
  | .functionCall => "function_call"
  | .functionReturn => "function_return"
  | .loadFrame => "load_current_frame_address"
  | .enterFrame => "store_stack_top_in_current_frame"
  | .popFrame => "pop_current_frame_address"
  | .allocate => "allocate_stack_space"
  | .free => "free_stack_space"
  | .copyValue => "copy_value"
  | .systemCall => "system_call"

/-- The operands that follow an opcode. -/
def operands : Opcode → List OperandKind
  | .loadNumber => [.sized]
  | .loadByte | .compare _ | .arithmetic _ | .minus | .bitwiseNot | .shift _ => [.byte]
  | .bitwise _ | .load _ | .assign _ | .loadIndexed | .storeIndexed | .copyValue => [.byte, .byte]
  | .branchForwardIfFalse | .branchForward | .branchBackward => [.distance]
  | .jump | .jumpIfFalse | .functionCall => [.address]
  | .loadOne _ | .assignOne _ | .addressOf _ | .loadMemory | .storeMemory | .enterFrame
  | .allocate | .free | .systemCall => [.byte]
  | .halt | .compareByte _ | .arithmeticByte _ | .logicalAnd | .logicalOr | .logicalNot
  | .functionReturn | .loadFrame | .popFrame => []

/-- The opcode of a given name. -/
def lookup? (name : Bytes) : Option Opcode := all.find? (·.name == name)

/-- The words for an opcode byte: its name, or its number when it encodes none. -/
def describe (b : UInt8) : Bytes :=
  match ofByte? b with
  | some op => op.name
  | none => "opcode(" ++ Bytes.decimal b.toNat ++ ")"

end Opcode

end Terrace
