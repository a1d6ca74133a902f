/-
# Tokens

The lexical units of the language. Words are numbers, identifiers or operators;
blocks are marked by tokens for the end of a line and for a deeper or shallower
indentation. A token knows the line and the byte column where it starts.

Key definitions: `TokenKind`, `Token`, `isReserved`, `TokenKind.ofWord`.
-/
import Terrace.Text.Quoted

namespace Terrace

/-- The kinds of tokens. -/
inductive TokenKind where
  /-- The end of the source. -/
  | finish
  /-- The end of a line. -/
  | newline
  /-- A line indented deeper than the one before. -/
  | indent
  /-- The end of an indented block. -/
  | dedent
  | identifier
  | number
  | string
  /-- Any other word. -/
  | operator
  | comma
  | leftParen
  | rightParen
  | leftBracket
  | rightBracket
deriving DecidableEq, Repr

/-- The name of a kind of token. -/
def TokenKind.name : TokenKind → Bytes
  | .finish => "EOF"
  | .newline => "NEWLINE"
  | .indent => "INDENT"
  | .dedent => "DEDENT"
  | .identifier => "IDENT"
  | .number => "NUMBER"
  | .string => "STRING"
  | .operator => "OPERATOR"
  | .comma => ","
  | .leftParen => "("
  | .rightParen => ")"
  | .leftBracket => "["
  | .rightBracket => "]"

/-- A token: its kind, its text in the source, the bytes a string stands for, and
its place. -/
structure Token where
  kind : TokenKind
  literal : Bytes
  value : Bytes := []
  line : Nat
  column : Nat
deriving DecidableEq, Repr

/-- The words that cannot name a variable or a function. -/
def reservedWords : List Bytes := [
  "def", "if", "else", "while", "return", "global", "include", "not", "and", "or",
  "True", "False", "_call", "_addr", "_load", "_store"]

/-- Whether a word is reserved. -/
def isReserved (word : Bytes) : Bool := reservedWords.contains word

namespace Token

/-- Whether a token is the identifier or keyword `word`. -/
def isWord (token : Token) (word : Bytes) : Bool :=
  token.kind == .identifier && token.literal == word

/-- Whether a token is the operator `sign`. -/
def isOperator (token : Token) (sign : Bytes) : Bool :=
  token.kind == .operator && token.literal == sign

/-- A token's kind with its text. -/
def shown (token : Token) : Bytes :=
  match token.kind with
  | .finish | .newline | .indent | .dedent => token.kind.name
  | _ => token.kind.name ++ " " ++ Text.quote token.literal

/-- A token as messages name it. -/
def description (token : Token) : Bytes :=
  match token.kind with
  | .finish => "end of file"
  | .newline => "end of line"
  | .indent => "indentation"
  | .dedent => "end of block"
  | _ => Text.quote token.literal

end Token

/-- Whether a word is a number: an optional minus sign, then decimal digits or `0x`
and hexadecimal digits. -/
def isNumberWord (word : Bytes) : Bool :=
  let digits := if word.head? = some '-'.toUInt8 then word.drop 1 else word
  match digits with
  | [] => false
  | zero :: mark :: digit :: rest =>
    if zero = '0'.toUInt8 && (mark = 'x'.toUInt8 || mark = 'X'.toUInt8) then
      (digit :: rest).all isHexDigit
    else digits.all isDigit
  | _ => digits.all isDigit

/-- Whether a word is made of letters, digits and underscores. -/
def isIdentifierWord (word : Bytes) : Bool :=
  !word.isEmpty && word.all fun b => b == '_'.toUInt8 || isDigit b || isLetter b

/-- The kind of a word. -/
def TokenKind.ofWord (word : Bytes) : TokenKind :=
  if isNumberWord word then .number
  else if isIdentifierWord word then .identifier
  else .operator

end Terrace
