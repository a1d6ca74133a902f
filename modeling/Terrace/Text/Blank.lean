/-
# Blanks

White space in the sense of Unicode, trimming it off a text and cutting a text
into the fields between it.

Key definitions: `isBlank`, `trim`, `fields`.
-/
import Terrace.Text.Utf8

namespace Terrace.Text

/-- White space: the ASCII and Latin-1 spaces and the Unicode space separators. -/
def isBlank (code : Nat) : Bool :=
  (9 ≤ code && code ≤ 13) || code == 0x20 || code == 0x85 || code == 0xa0 || code == 0x1680 ||
  (0x2000 ≤ code && code ≤ 0x200a) || code == 0x2028 || code == 0x2029 || code == 0x202f ||
  code == 0x205f || code == 0x3000

/-- Whether a piece of a text is white space; a stray byte is not. -/
def Utf8.Piece.isBlank : Utf8.Piece → Bool
  | .scalar code => Text.isBlank code
  | .stray _ => false

/-- The bytes of a piece of a text. -/
def Utf8.Piece.bytes : Utf8.Piece → Bytes
  | .scalar code => Utf8.encode code
  | .stray byte => [byte]

/-- A text without the white space at its two ends. -/
def trim (text : Bytes) : Bytes :=
  (((Utf8.units text).dropWhile (·.isBlank)).reverse.dropWhile (·.isBlank)).reverse.flatMap
    (·.bytes)

/-- The fields of a sequence of pieces; `field` holds the one being read, last piece first. -/
def fieldsFrom (field : List Utf8.Piece) : List Utf8.Piece → List Bytes
  | [] => if field.isEmpty then [] else [field.reverse.flatMap (·.bytes)]
  | piece :: rest =>
    if piece.isBlank then
      if field.isEmpty then fieldsFrom [] rest
      else field.reverse.flatMap (·.bytes) :: fieldsFrom [] rest
    else fieldsFrom (piece :: field) rest

/-- The pieces of a text between runs of white space. -/
def fields (text : Bytes) : List Bytes := fieldsFrom [] (Utf8.units text)

end Terrace.Text
