/-
# Quoted text

How messages show a piece of text: between quotes, with printable code points
kept, the usual short escapes, and numeric escapes for the rest. Text in double
quotes escapes the double quote, a character in single quotes the single quote.

Key definitions: `quote`, `quoteChar`.
-/
import Terrace.Text.Printable
import Terrace.Text.Utf8

namespace Terrace.Text

/-- The letter of a short escape. -/
def shortEscape (code : Nat) : Option Char :=
  match code with
  | 7 => some 'a'
  | 8 => some 'b'
  | 9 => some 't'
  | 10 => some 'n'
  | 11 => some 'v'
  | 12 => some 'f'
  | 13 => some 'r'
  | _ => none

/-- A code point inside quotes of the kind `mark`. -/
def quoteCode (mark : Char) (code : Nat) : Bytes :=
  if code = mark.toNat || code = '\\'.toNat then "\\" ++ Utf8.encode code
  else if isPrintable code then Utf8.encode code
  else match shortEscape code with
    | some letter => "\\" ++ [letter.toUInt8]
    | none =>
      if code < 0x20 || code = 0x7f then "\\x" ++ Bytes.hexPadded 2 code
      else if code < 0x10000 then "\\u" ++ Bytes.hexPadded 4 code
      else "\\U" ++ Bytes.hexPadded 8 code

/-- A piece of a text inside double quotes. -/
def quotePiece : Utf8.Piece → Bytes
  | .scalar code => quoteCode '"' code
  | .stray byte => "\\x" ++ Bytes.hexByte byte

/-- A text in double quotes. -/
def quote (text : Bytes) : Bytes :=
  "\"" ++ (Utf8.units text).flatMap quotePiece ++ "\""

/-- A code point in single quotes. -/
def quoteChar (code : Nat) : Bytes :=
  "'" ++ quoteCode '\'' code ++ "'"

end Terrace.Text
