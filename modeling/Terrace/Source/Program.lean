/-
# Programs

A program after parsing: function definitions, the main block and the global
variables. Names are resolved: a variable is a place in the frame of its function
or among the globals, and a callee is its number in the order of the definitions.
Every node carries the sizes its code needs.

Key definitions: `Shape`, `Place`, `Expression`, `Statement`, `Definition`,
`Program`.
-/
import Terrace.Code.Operator
import Terrace.Source.Symbol

namespace Terrace

/-- What an expression leaves on the stack: a number of bytes, and whether a variable
made of it is an array. -/
structure Shape where
  size : Int
  /-- The size of one element; the whole size unless it is an array. -/
  elementSize : Int
  isArray : Bool := false
deriving DecidableEq, Repr

namespace Shape

/-- A single value of `size` bytes. -/
def scalar (size : Int) : Shape := { size, elementSize := size }

/-- No value at all. -/
def nothing : Shape := scalar 0

end Shape

/-- A variable at its offset in the frame or among the globals. -/
structure Place where
  scope : Scope
  slot : Variable
  offset : Int
deriving DecidableEq, Repr

/-- Something that is evaluated; its value is left on the stack. -/
inductive Expression where
  | literal (value : Bytes)
  /-- The value of a variable; of an array parameter, the address it holds. -/
  | load (place : Place)
  /-- The address of a variable's first byte; of an array parameter, that of its array. -/
  | addressOf (place : Place)
  /-- An element of the array at `place`. -/
  | element (place : Place) (index : Expression) (indexSize : Int)
  | unary (operator : UnaryOp) (operand : Expression) (size : Int)
  | binary (operator : BinaryOp) (left right : Expression) (leftSize rightSize : Int)
  /-- A call of the definition with number `callee`. -/
  | call (callee : Nat) (arguments : List Expression)
  /-- A system call at an address, with the values of the registers. -/
  | systemCall (address a x y : Expression)
  | loadMemory (size : Int) (address : Expression)
  /-- Stores a value at an address and leaves nothing. -/
  | storeMemory (value : Expression) (size : Int) (address : Expression)
deriving Repr, Inhabited

/-- Something that is executed; it leaves the stack as it was. -/
inductive Statement where
  | assign (place : Place) (value : Expression)
  | assignElement (place : Place) (index : Expression) (indexSize : Int) (value : Expression)
  /-- An expression whose value of `size` bytes is dropped. -/
  | discard (value : Expression) (size : Int)
  | ifThen (condition : Expression) (body : List Statement)
  | ifElse (condition : Expression) (body otherwise : List Statement)
  | whileLoop (condition : Expression) (body : List Statement)
  | giveBack (value : Option Expression)
deriving Repr, Inhabited

/-- A function with its body. -/
structure Definition where
  function : Function
  body : List Statement
deriving Repr

/-- A whole program. -/
structure Program where
  definitions : List Definition
  main : List Statement
  globals : VariableList
deriving Repr

end Terrace
