/-
# Numbers of any width

Values on the machine's stack are little-endian byte strings, read as natural
numbers. The operations work byte by byte with a carry in a machine word, as the
hardware the code is meant for does, and wrap at the width of the value. Only
division goes through numbers without a bound, which are read and written with
the high byte first.

Key definitions: `Number.value`, `Number.add`, `Number.subtract`,
`Number.multiply`, `Number.divide`, `Number.less`, `Number.negate`,
`Number.shiftLeft`, `Number.shiftRight`.
-/
import Terrace.Code.Opcode

namespace Terrace.Number

/-- The natural number a byte string denotes, low byte first. -/
def value : Bytes → Nat
  | [] => 0
  | b :: rest => b.toNat + 256 * value rest

/-- Adds two byte strings and a carry. -/
def addFrom (carry : UInt64) : Bytes → Bytes → Bytes
  | a :: as, b :: bs =>
    let t := a.toUInt64 + b.toUInt64 + carry
    t.toUInt8 :: addFrom (t >>> 8) as bs
  | _, _ => []

/-- The sum of two values of one width. -/
def add (a b : Bytes) : Bytes := addFrom 0 a b

/-- Subtracts the second byte string and a borrow from the first. -/
def subtractFrom (borrow : UInt64) : Bytes → Bytes → Bytes
  | a :: as, b :: bs =>
    let t := a.toUInt64 - b.toUInt64 - borrow
    t.toUInt8 :: subtractFrom ((t >>> 8) &&& 1) as bs
  | _, _ => []

/-- The difference of two values of one width. -/
def subtract (a b : Bytes) : Bytes := subtractFrom 0 a b

/-- Adds `digit` times the second byte string, and a carry, to the first. What
does not fit in the first is dropped. -/
def addProduct (digit : UInt8) (carry : UInt64) : Bytes → Bytes → Bytes
  | sum :: sums, b :: bs =>
    let t := sum.toUInt64 + digit.toUInt64 * b.toUInt64 + carry
    t.toUInt8 :: addProduct digit (t >>> 8) sums bs
  | sums, _ => sums

/-- Adds the products of the digits of `a` with `b` to `sums`, each digit one byte
further up. -/
def multiplyInto (b : Bytes) : Bytes → Bytes → Bytes
  | [], sums => sums
  | digit :: digits, sums =>
    match addProduct digit 0 sums b with
    | [] => []
    | low :: rest => low :: multiplyInto b digits rest

/-- The low bytes of the product of two values of one width. -/
def multiply (a b : Bytes) : Bytes := multiplyInto b a (List.replicate a.length 0)

/-- The natural number that bytes denote, high byte first. -/
def ofBigEndian (bytes : Bytes) : Nat := bytes.foldl (fun n b => 256 * n + b.toNat) 0

/-- So many bytes that denote a natural number, high byte first; none if it needs more. -/
def fill? : Nat → Nat → Option Bytes
  | 0, n => if n = 0 then some [] else none
  | width + 1, n => (fill? width (n / 256)).map (· ++ [n.toUInt8])

/-- A value as a natural number without a bound. -/
def unbounded (v : Bytes) : Nat := ofBigEndian v.reverse

/-- A natural number as a value of a width; none if it does not fit. -/
def bounded? (width n : Nat) : Option Bytes := (fill? width n).map List.reverse

/-- The truncated quotient of two values, in the width of the first; none when the
divisor is zero, or if the quotient did not fit. -/
def divide (a b : Bytes) : Option Bytes :=
  if unbounded b = 0 then none else bounded? a.length (unbounded a / unbounded b)

/-- Whether two values of one width are equal. -/
def equal : Bytes → Bytes → Bool
  | a :: as, b :: bs => a == b && equal as bs
  | _, _ => true

/-- Compares byte strings from the front, the first difference deciding. -/
def lessFromTop : Bytes → Bytes → Bool
  | a :: as, b :: bs => if a != b then a < b else lessFromTop as bs
  | _, _ => false

/-- Whether one value is below another of the same width, compared from the most
significant byte. -/
def less (a b : Bytes) : Bool := lessFromTop a.reverse b.reverse

/-- Inverts every bit. -/
def invert (v : Bytes) : Bytes := v.map fun b => ~~~b

/-- Adds a carry to a byte string. -/
def addCarry (carry : UInt64) : Bytes → Bytes
  | [] => []
  | b :: rest =>
    let t := b.toUInt64 + carry
    t.toUInt8 :: addCarry (t >>> 8) rest

/-- The two's complement negation of a value. -/
def negate (v : Bytes) : Bytes := addCarry 1 (invert v)

/-- The byte at place `i` after a shift to the left by `whole` bytes and `bits` bits. -/
def leftShifted (whole bits : Nat) (v : Bytes) (i : Nat) : UInt8 :=
  if i < whole then 0
  else
    let source := i - whole
    let high := v.getD source 0 <<< bits.toUInt8
    if 0 < bits && 0 < source then high ||| (v.getD (source - 1) 0 >>> (8 - bits).toUInt8) else high

/-- Shifts the places below `count` in place, from the highest down. -/
def shiftLeftBelow (whole bits : Nat) : Nat → Bytes → Bytes
  | 0, v => v
  | i + 1, v => shiftLeftBelow whole bits i (v.set i (leftShifted whole bits v i))

/-- Shifts a value towards its most significant byte. The bytes are overwritten
from the top, so each is read before it is replaced. -/
def shiftLeft (v : Bytes) (amount : Nat) : Bytes :=
  shiftLeftBelow (amount / 8) (amount % 8) v.length v

/-- The byte at place `i` after a shift to the right by `whole` bytes and `bits` bits. -/
def rightShifted (whole bits : Nat) (v : Bytes) (i : Nat) : UInt8 :=
  let source := i + whole
  if v.length ≤ source then 0
  else
    let low := v.getD source 0 >>> bits.toUInt8
    if 0 < bits && source + 1 < v.length then
      low ||| (v.getD (source + 1) 0 <<< (8 - bits).toUInt8)
    else low

/-- Shifts `count` places in place, from place `i` up. -/
def shiftRightFrom (whole bits : Nat) : Nat → Nat → Bytes → Bytes
  | 0, _, v => v
  | count + 1, i, v =>
    shiftRightFrom whole bits count (i + 1) (v.set i (rightShifted whole bits v i))

/-- Shifts a value towards its least significant byte, filling with zeros. The
bytes are overwritten from the bottom. -/
def shiftRight (v : Bytes) (amount : Nat) : Bytes :=
  shiftRightFrom (amount / 8) (amount % 8) v.length 0 v

/-- The byte of a truth value: all bits set, or none. -/
def truth (b : Bool) : UInt8 := if b then 0xff else 0

/-- The result of a comparison of two values of one width. -/
def compare (comparison : Comparison) (a b : Bytes) : Bool :=
  match comparison with
  | .equals => equal a b
  | .notEquals => !equal a b
  | .lessThan => less a b
  | .greaterThan => less b a

/-- The result of an arithmetic operation; none for a division that has none. -/
def arithmetic (operation : Arithmetic) (a b : Bytes) : Option Bytes :=
  match operation with
  | .add => some (add a b)
  | .subtract => some (subtract a b)
  | .multiply => some (multiply a b)
  | .divide => divide a b

/-- A bitwise operation on two bytes. -/
def bitwiseByte (operation : Bitwise) (a b : UInt8) : UInt8 :=
  match operation with
  | .and => a &&& b
  | .or => a ||| b
  | .xor => a ^^^ b

/-- Combines two values bit by bit. The result has the width of the second; the
first is extended by zeros or cut to it. -/
def bitwise (operation : Bitwise) : Bytes → Bytes → Bytes
  | _, [] => []
  | [], b :: bs => bitwiseByte operation 0 b :: bitwise operation [] bs
  | a :: as, b :: bs => bitwiseByte operation a b :: bitwise operation as bs

/-- A shift of a value. -/
def shift (direction : Direction) (v : Bytes) (amount : Nat) : Bytes :=
  match direction with
  | .left => shiftLeft v amount
  | .right => shiftRight v amount

end Terrace.Number
