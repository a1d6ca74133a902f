/-
# Byte strings

All text the library reads and writes is a list of bytes: source files need not
be well-formed UTF-8, and columns count bytes. This module holds the type, the
reading of a string literal as its UTF-8 bytes, the usual cuts and joins, and
the plain number formats (decimal, hexadecimal, addresses) used in messages and
listings.

Key definitions: `Bytes`, `Bytes.decimal`, `Bytes.address`, `Bytes.splitOn`.
-/

namespace Terrace

/-- A text or a piece of code as its bytes. -/
abbrev Bytes := List UInt8

namespace Bytes

/-- The UTF-8 bytes of a string. -/
def ofString (s : String) : Bytes := s.toUTF8.data.toList

instance : Coe String Bytes := ⟨ofString⟩

/-- A natural number in decimal. -/
def decimal (n : Nat) : Bytes := (Nat.toDigits 10 n).map Char.toUInt8

/-- An integer in decimal, with a minus sign in front of a negative one. -/
def decimalInt (n : Int) : Bytes :=
  if n < 0 then "-" ++ decimal n.natAbs else decimal n.natAbs

/-- A natural number in lower-case hexadecimal, without leading zeros. -/
def hex (n : Nat) : Bytes := (Nat.toDigits 16 n).map Char.toUInt8

/-- Fills a text up to `width` bytes on its left. -/
def padLeft (width : Nat) (fill : UInt8) (text : Bytes) : Bytes :=
  List.replicate (width - text.length) fill ++ text

/-- Fills a text up to `width` bytes with spaces on its right. -/
def padRight (width : Nat) (text : Bytes) : Bytes :=
  text ++ List.replicate (width - text.length) ' '.toUInt8

/-- Hexadecimal with at least `width` digits. -/
def hexPadded (width n : Nat) : Bytes := padLeft width '0'.toUInt8 (hex n)

/-- One byte as two hexadecimal digits. -/
def hexByte (b : UInt8) : Bytes := hexPadded 2 b.toNat

/-- Bytes as pairs of hexadecimal digits with spaces between them. -/
def hexDump (bytes : Bytes) : Bytes := List.intercalate " " (bytes.map hexByte)

/-- An address in messages: `0x` and at least four digits. A minus sign comes
first and takes the place of one digit. -/
def address (n : Int) : Bytes :=
  if n < 0 then "-0x" ++ hexPadded 3 n.natAbs else "0x" ++ hexPadded 4 n.natAbs

/-- Cuts a text at every `separator`; a text without one is a single piece. -/
def splitOn (separator : UInt8) : Bytes → List Bytes
  | [] => [[]]
  | b :: rest =>
    if b = separator then [] :: splitOn separator rest
    else match splitOn separator rest with
      | [] => [[b]]
      | piece :: pieces => (b :: piece) :: pieces

/-- Whether `text` begins with `start`. -/
def startsWith (text start : Bytes) : Bool := start.isPrefixOf text

/-- Whether `text` ends with `ending`. -/
def endsWith (text ending : Bytes) : Bool := ending.isSuffixOf text

/-- The text without its last bytes that satisfy `p`. -/
def dropRightWhile (p : UInt8 → Bool) (text : Bytes) : Bytes :=
  (text.reverse.dropWhile p).reverse

/-- The text before the first byte that satisfies `p`, and the text from that byte on. -/
def splitAtFirst (p : UInt8 → Bool) (text : Bytes) : Bytes × Bytes :=
  text.span (!p ·)

/-- The lexicographic order of bytes. -/
def le : Bytes → Bytes → Bool
  | [], _ => true
  | _ :: _, [] => false
  | a :: as, b :: bs => a < b || (a == b && le as bs)

end Bytes

/-- Whether a byte is a decimal digit. -/
def isDigit (b : UInt8) : Bool := '0'.toUInt8 ≤ b && b ≤ '9'.toUInt8

/-- Whether a byte is a hexadecimal digit of either case. -/
def isHexDigit (b : UInt8) : Bool :=
  isDigit b || ('a'.toUInt8 ≤ b && b ≤ 'f'.toUInt8) || ('A'.toUInt8 ≤ b && b ≤ 'F'.toUInt8)

/-- Whether a byte is an ASCII letter. -/
def isLetter (b : UInt8) : Bool :=
  ('a'.toUInt8 ≤ b && b ≤ 'z'.toUInt8) || ('A'.toUInt8 ≤ b && b ≤ 'Z'.toUInt8)

/-- The value of a digit in a base up to 36: letters of either case follow the
decimal digits. Any other byte has no value. -/
def digitValue (b : UInt8) : Option Nat :=
  if isDigit b then some (b.toNat - 48)
  else if 'a'.toUInt8 ≤ b && b ≤ 'z'.toUInt8 then some (b.toNat - 97 + 10)
  else if 'A'.toUInt8 ≤ b && b ≤ 'Z'.toUInt8 then some (b.toNat - 65 + 10)
  else none

end Terrace
