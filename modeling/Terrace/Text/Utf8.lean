/-
# UTF-8

Reading bytes as code points. A byte that begins no well-formed sequence stands
alone as a stray unit, so every text has a reading and nothing is lost.

Key definitions: `Utf8.decode`, `Utf8.units`, `Utf8.encode`, `Utf8.isValid`,
`Utf8.ofLatin1`.
-/
import Terrace.Text.Bytes

namespace Terrace.Text.Utf8

/-- A continuation byte. -/
def isTail (b : UInt8) : Bool := 0x80 ≤ b && b ≤ 0xbf

/-- The six low bits of a continuation byte. -/
def tailBits (b : UInt8) : Nat := b.toNat - 0x80

/-- The range of second bytes that a lead byte of three admits: no overlong form
and no surrogate. -/
def secondOfThree (lead second : UInt8) : Bool :=
  if lead = 0xe0 then 0xa0 ≤ second && second ≤ 0xbf
  else if lead = 0xed then 0x80 ≤ second && second ≤ 0x9f
  else isTail second

/-- The range of second bytes that a lead byte of four admits: no overlong form
and nothing above U+10FFFF. -/
def secondOfFour (lead second : UInt8) : Bool :=
  if lead = 0xf0 then 0x90 ≤ second && second ≤ 0xbf
  else if lead = 0xf4 then 0x80 ≤ second && second ≤ 0x8f
  else isTail second

/-- The code point that starts with byte `lead` followed by `rest`, and how many
bytes of `rest` it takes. -/
def decode (lead : UInt8) (rest : Bytes) : Option (Nat × Nat) :=
  if lead < 0x80 then some (lead.toNat, 0)
  else if 0xc2 ≤ lead && lead ≤ 0xdf then
    match rest with
    | b :: _ => if isTail b then some ((lead.toNat - 0xc0) * 64 + tailBits b, 1) else none
    | _ => none
  else if 0xe0 ≤ lead && lead ≤ 0xef then
    match rest with
    | b :: c :: _ =>
      if secondOfThree lead b && isTail c then
        some ((lead.toNat - 0xe0) * 4096 + tailBits b * 64 + tailBits c, 2)
      else none
    | _ => none
  else if 0xf0 ≤ lead && lead ≤ 0xf4 then
    match rest with
    | b :: c :: d :: _ =>
      if secondOfFour lead b && isTail c && isTail d then
        some ((lead.toNat - 0xf0) * 262144 + tailBits b * 4096 + tailBits c * 64 + tailBits d, 3)
      else none
    | _ => none
  else none

/-- A piece of a text: a code point, or a byte that begins no well-formed sequence. -/
inductive Piece where
  | scalar (code : Nat)
  | stray (byte : UInt8)
deriving DecidableEq, Repr

/-- The code point of a piece; a stray byte counts as U+FFFD. -/
def Piece.code : Piece → Nat
  | .scalar code => code
  | .stray _ => 0xfffd

/-- The pieces of a text after its first `skip` bytes, which an earlier piece took. -/
def unitsAfter : Nat → Bytes → List Piece
  | _, [] => []
  | skip + 1, _ :: rest => unitsAfter skip rest
  | 0, b :: rest =>
    match decode b rest with
    | some (code, taken) => .scalar code :: unitsAfter taken rest
    | none => .stray b :: unitsAfter 0 rest

/-- A text as code points and stray bytes. -/
def units (text : Bytes) : List Piece := unitsAfter 0 text

/-- Whether a text is well-formed UTF-8. -/
def isValid (text : Bytes) : Bool :=
  (units text).all fun
    | .scalar _ => true
    | .stray _ => false

/-- The bytes of a code point. -/
def encode (code : Nat) : Bytes :=
  if code < 0x80 then [code.toUInt8]
  else if code < 0x800 then [(0xc0 + code / 64).toUInt8, (0x80 + code % 64).toUInt8]
  else if code < 0x10000 then
    [(0xe0 + code / 4096).toUInt8, (0x80 + code / 64 % 64).toUInt8, (0x80 + code % 64).toUInt8]
  else
    [(0xf0 + code / 262144).toUInt8, (0x80 + code / 4096 % 64).toUInt8,
      (0x80 + code / 64 % 64).toUInt8, (0x80 + code % 64).toUInt8]

/-- A text in which every byte is the code point of the same number, as UTF-8. -/
def ofLatin1 (bytes : Bytes) : Bytes := bytes.flatMap fun b => encode b.toNat

/-- The number of code points and stray bytes of a text. -/
def count (text : Bytes) : Nat := (units text).length

end Terrace.Text.Utf8
