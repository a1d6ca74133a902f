/-
# Operators

The operators of the language with their signs in the source. They are grouped as
the instructions that carry them out are.

Key definitions: `BinaryOp`, `UnaryOp`, `BinaryOp.ofSymbol?`, `UnaryOp.ofSymbol?`.
-/
import Terrace.Code.Opcode

namespace Terrace

/-- The binary operators of the language. -/
inductive BinaryOp where
  | compare (comparison : Comparison)
  | arithmetic (operation : Arithmetic)
  | and
  | or
  | bitwise (operation : Bitwise)
  | shift (direction : Direction)
deriving DecidableEq, Repr

/-- The operators in front of an operand. -/
inductive UnaryOp where
  | not
  | minus
  | invert
deriving DecidableEq, Repr

namespace BinaryOp

/-- The sign of an operator in the source. -/
def symbol : BinaryOp → Bytes
  | .compare .equals => "=="
  | .compare .notEquals => "!="
  | .compare .lessThan => "<"
  | .compare .greaterThan => ">"
  | .arithmetic .add => "+"
  | .arithmetic .subtract => "-"
  | .arithmetic .multiply => "*"
  | .arithmetic .divide => "/"
  | .and => "and"
  | .or => "or"
  | .bitwise .and => "&"
  | .bitwise .or => "|"
  | .bitwise .xor => "^"
  | .shift .left => "<<"
  | .shift .right => ">>"

/-- Every binary operator. -/
def all : List BinaryOp := [
  .compare .equals, .compare .notEquals, .compare .lessThan, .compare .greaterThan,
  .arithmetic .add, .arithmetic .subtract, .arithmetic .multiply, .arithmetic .divide,
  .and, .or, .bitwise .and, .bitwise .or, .bitwise .xor, .shift .left, .shift .right]

/-- The operator with a sign. -/
def ofSymbol? (symbol : Bytes) : Option BinaryOp := all.find? (·.symbol == symbol)

end BinaryOp

namespace UnaryOp

/-- The sign of an operator in the source. -/
def symbol : UnaryOp → Bytes
  | .not => "not"
  | .minus => "-"
  | .invert => "~"

/-- The operator with a sign. -/
def ofSymbol? (symbol : Bytes) : Option UnaryOp :=
  [UnaryOp.not, .minus, .invert].find? (·.symbol == symbol)

end UnaryOp

end Terrace
