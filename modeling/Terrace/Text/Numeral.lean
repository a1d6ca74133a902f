/-
# Numerals

Reading numbers of a bounded width. Digits are read from the left and the first
fault wins: a byte that is no digit is a syntax fault, a value above the bound a
range fault. In the free form the text itself names its base by `0x`, `0b`, `0o`
or a leading `0`, and single underscores may stand between digits.

Key definitions: `Numeral.Fault`, `Numeral.readDigits`, `Numeral.readFree`,
`Numeral.readSigned`, `Numeral.describe`.
-/
import Terrace.Text.Quoted

namespace Terrace.Text.Numeral

/-- Why a text is not the numeral asked for. -/
inductive Fault where
  | malformed
  | outOfRange
deriving DecidableEq, Repr

/-- The words for a fault. -/
def Fault.words : Fault → Bytes
  | .malformed => "invalid syntax"
  | .outOfRange => "value out of range"

/-- Reads the digits of a numeral whose earlier digits have the value `value`.
Underscores are passed over when `underscores` is set. -/
def digitsFrom (base limit : Nat) (underscores : Bool) (value : Nat) : Bytes → Except Fault Nat
  | [] => .ok value
  | b :: rest =>
    if underscores && b == '_'.toUInt8 then digitsFrom base limit underscores value rest
    else match digitValue b with
      | none => .error .malformed
      | some d =>
        if base ≤ d then .error .malformed
        else if limit < value * base + d then .error .outOfRange
        else digitsFrom base limit underscores (value * base + d) rest

/-- A non-empty numeral in a fixed base, at most `limit`. -/
def readDigits (base limit : Nat) (text : Bytes) : Except Fault Nat :=
  if text.isEmpty then .error .malformed else digitsFrom base limit false 0 text

/-- The base that a numeral in free form names, and its digits. -/
def freeBase : Bytes → Nat × Bytes
  | [] => (10, [])
  | z :: rest =>
    if z ≠ '0'.toUInt8 then (10, z :: rest)
    else match rest with
      | mark :: digit :: digits =>
        if mark = 'x'.toUInt8 || mark = 'X'.toUInt8 then (16, digit :: digits)
        else if mark = 'o'.toUInt8 || mark = 'O'.toUInt8 then (8, digit :: digits)
        else if mark = 'b'.toUInt8 || mark = 'B'.toUInt8 then (2, digit :: digits)
        else (8, rest)
      | _ => (8, rest)

/-- What stands before a byte of a numeral, for the placing of underscores. -/
inductive Before where
  | start
  | digit
  | underscore
  | other
deriving DecidableEq

/-- Whether every underscore stands between two digits, given what stands before. -/
def underscoresFrom (hexadecimal : Bool) (before : Before) : Bytes → Bool
  | [] => before != .underscore
  | b :: rest =>
    if isDigit b || (hexadecimal && isHexDigit b) then underscoresFrom hexadecimal .digit rest
    else if b = '_'.toUInt8 then before == .digit && underscoresFrom hexadecimal .underscore rest
    else before != .underscore && underscoresFrom hexadecimal .other rest

/-- Whether the underscores of a numeral in free form separate digits; a base
mark counts as a digit. -/
def underscoresPlaced (text : Bytes) : Bool :=
  match text with
  | z :: mark :: rest =>
    if z = '0'.toUInt8 && (mark = 'x'.toUInt8 || mark = 'X'.toUInt8) then
      underscoresFrom true .digit rest
    else if z = '0'.toUInt8 && (mark = 'b'.toUInt8 || mark = 'B'.toUInt8 ||
        mark = 'o'.toUInt8 || mark = 'O'.toUInt8) then
      underscoresFrom false .digit rest
    else underscoresFrom false .start text
  | _ => underscoresFrom false .start text

/-- A non-empty numeral in free form, at most `limit`. -/
def readFree (limit : Nat) (text : Bytes) : Except Fault Nat :=
  if text.isEmpty then .error .malformed
  else
    let (base, digits) := freeBase text
    match digitsFrom base limit true 0 digits with
    | .error fault => .error fault
    | .ok value =>
      if digits.contains '_'.toUInt8 && !underscoresPlaced text then .error .malformed
      else .ok value

/-- A numeral with an optional sign, whose magnitude `read` reads; it lies in the
two's complement range of `bits` bits. -/
def readSigned (bits : Nat) (read : Nat → Bytes → Except Fault Nat) (text : Bytes) :
    Except Fault Int :=
  let half := Nat.pow 2 (bits - 1)
  let magnitude (text : Bytes) : Except Fault Nat :=
    match read (2 * half - 1) text with
    | .error .outOfRange => .ok (2 * half - 1)
    | other => other
  let bounded (negative : Bool) (value : Nat) : Except Fault Int :=
    if negative then
      if half < value then .error .outOfRange else .ok (-(value : Int))
    else if half ≤ value then .error .outOfRange else .ok value
  match text with
  | [] => .error .malformed
  | sign :: rest =>
    if sign = '-'.toUInt8 then magnitude rest >>= bounded true
    else if sign = '+'.toUInt8 then magnitude rest >>= bounded false
    else magnitude text >>= bounded false

/-- A decimal numeral with an optional sign. -/
def readDecimal (bits : Nat) (text : Bytes) : Except Fault Int :=
  readSigned bits (readDigits 10) text

/-- The message of an unsigned numeral that could not be read. -/
def describe (text : Bytes) (fault : Fault) : Bytes :=
  "strconv.ParseUint: parsing " ++ quote text ++ ": " ++ fault.words

end Terrace.Text.Numeral
