/-
# Number literals

The bytes a number in the source stands for, lowest first. A decimal number takes
the fewest of 1, 2 or 4 bytes that hold it, with a sign bit when it is negative. A
hexadecimal number takes a byte for two digits, rounded up to 1, 2 or 4.

Key definitions: `decimalSize?`, `hexSize`, `bytesOf`, `encodeNumber`,
`literalValue?`.
-/
import Terrace.Text.Numeral

namespace Terrace

/-- The fewest bytes for a decimal number; none if it needs more than four. -/
def decimalSize? (v : Int) : Option Nat :=
  if 0 ≤ v then
    if v ≤ 0xff then some 1
    else if v ≤ 0xffff then some 2
    else if v ≤ 0xffffffff then some 4
    else none
  else if -0x80 ≤ v then some 1
  else if -0x8000 ≤ v then some 2
  else if -0x80000000 ≤ v then some 4
  else none

/-- The bytes for a number of hexadecimal digits. -/
def hexSize (digits : Nat) : Nat :=
  if digits ≤ 2 then 1 else if digits ≤ 4 then 2 else 4

/-- The low `size` bytes of a number in two's complement, lowest first. -/
def bytesOf (v : Int) : Nat → Bytes
  | 0 => []
  | size + 1 => (v % 256).toNat.toUInt8 :: bytesOf (v / 256) size

/-- The digits of a numeral behind a mark for base sixteen. -/
def hexDigits? : Bytes → Option Bytes
  | zero :: mark :: digits =>
    if zero = '0'.toUInt8 && (mark = 'x'.toUInt8 || mark = 'X'.toUInt8) then some digits else none
  | _ => none

/-- The bytes of a number literal; none if it does not fit in 32 bits. -/
def encodeNumber (literal : Bytes) : Option Bytes :=
  let negative := literal.head? = some '-'.toUInt8
  match hexDigits? (if negative then literal.drop 1 else literal) with
  | some digits =>
    match Text.Numeral.readDigits 16 0xffffffff digits with
    | .error _ => none
    | .ok magnitude =>
      if 8 < digits.length then none
      else some (bytesOf (if negative then -(magnitude : Int) else magnitude) (hexSize digits.length))
  | none =>
    match Text.Numeral.readDecimal 64 literal with
    | .error _ => none
    | .ok v => (decimalSize? v).map (bytesOf v)

/-- The value of a literal that fits in 31 bits and a sign. -/
def literalValue? (literal : Bytes) : Option Int :=
  let read := match hexDigits? literal with
    | some digits => Text.Numeral.readSigned 32 (Text.Numeral.readDigits 16) digits
    | none => Text.Numeral.readDecimal 32 literal
  read.toOption

end Terrace
