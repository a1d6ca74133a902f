/-
# Listings

A readable form of encoded instructions: address, opcode name, operands, the
bytes of a literal, and for branches and calls the address they lead to with its
label. A label stands on a line of its own in front of its address.

Key definitions: `Line`, `disassemble`, `Line.render`, `listing`.
-/
import Terrace.Code.Instruction

namespace Terrace

/-- An instruction at its address. The address is kept unbounded; a listing shows
its low 16 bits. -/
structure Line where
  position : Nat
  instruction : Instruction
deriving DecidableEq, Repr

namespace Line

/-- The address a line shows. -/
def address (line : Line) : UInt16 := line.position.toUInt16

/-- The numbers of the operands. -/
def operands (line : Line) : List Nat := line.instruction.operands.map Operand.value

/-- The bytes of a sized operand; empty when there is none. -/
def literal (line : Line) : Bytes :=
  line.instruction.operands.flatMap fun
    | .sized bytes => bytes
    | _ => []

/-- Where a branch, jump or call leads. -/
def target (line : Line) : Option Int :=
  line.instruction.operands.findSome? fun
    | .distance d =>
      if line.instruction.op = .branchBackward then some ((line.position : Int) - d.toNat)
      else some ((line.position : Int) + d.toNat)
    | .address a => some a.toNat
    | _ => none

end Line

/-- The instructions of a code loaded at `base`, up to the first decoding error. -/
def disassemble (code : Bytes) (base : UInt16) : List Line × Option DecodeError :=
  let (found, failure) := Instruction.readAll code
  (found.map fun (offset, instruction) => ⟨base.toNat + offset, instruction⟩, failure)

/-- Names of addresses. -/
abbrev Labels := List (UInt16 × Bytes)

/-- The name of an address. -/
def Labels.find (labels : Labels) (address : UInt16) : Option Bytes :=
  (labels.find? (·.1 == address)).map Prod.snd

/-- The terminal colours of a listing. -/
inductive Colour where
  | red
  | green
  | blue
  | magenta
  | cyan
deriving DecidableEq, Repr

/-- The terminal's number of a colour. -/
def Colour.number : Colour → Nat
  | .red => 31
  | .green => 32
  | .blue => 34
  | .magenta => 35
  | .cyan => 36

/-- A text in a colour, or as it is when colours are off. -/
def paint (colours : Bool) (colour : Colour) (text : Bytes) : Bytes :=
  if colours then "\x1b[" ++ Bytes.decimal colour.number ++ "m" ++ text ++ "\x1b[0m" else text

namespace Line

/-- The comment that tells where a line leads; none for an address below zero. -/
def comment (labels : Labels) (line : Line) : Option Bytes :=
  match line.target with
  | some target =>
    if target < 0 then none
    else
      let label := match labels.find target.toNat.toUInt16 with
        | some name => " " ++ name
        | none => []
      some ("   ; -> " ++ Bytes.hexPadded 4 target.toNat ++ label)
  | none => none

/-- The operands of a line, a space before each. The size of a literal has the
literal's colour. -/
def renderOperands (colours : Bool) (line : Line) : Bytes :=
  let colour : Colour := if line.literal.isEmpty then .magenta else .red
  line.operands.flatMap fun value => ' '.toUInt8 :: paint colours colour (Bytes.decimal value)

/-- The bytes of a literal, a space before them. -/
def renderLiteral (colours : Bool) (line : Line) : Bytes :=
  if line.literal.isEmpty then []
  else ' '.toUInt8 :: paint colours .red (Bytes.hexDump line.literal)

/-- A line of the listing. -/
def render (labels : Labels) (colours : Bool) (line : Line) : Bytes :=
  let comment := match line.comment labels with
    | some comment => paint colours .green comment
    | none => []
  "  " ++ Bytes.hexPadded 4 line.address.toNat ++ "  "
    ++ paint colours .blue line.instruction.op.name
    ++ line.renderOperands colours ++ line.renderLiteral colours ++ comment ++ "\n"

end Line

/-- The pieces of a listing: label lines and instruction lines. -/
def listing (lines : List Line) (labels : Labels) (colours : Bool) : List Bytes :=
  lines.flatMap fun line =>
    match labels.find line.address with
    | some name => [paint colours .cyan (name ++ ":") ++ "\n", line.render labels colours]
    | none => [line.render labels colours]

end Terrace
