/-
# The scanner

Cuts source text into tokens, one at a time. At the start of a line it measures
the indentation and reports changes of depth; blank lines and lines that hold
only a comment end with a newline token and leave the depth alone. At the end of
the text the last line and all open blocks are closed.

Key definitions: `LexicalCause`, `LexicalError`, `Scanner`, `Scanner.scan`,
`Scanner.next`, `tokenize`.
-/
import Terrace.Token

namespace Terrace

/-- What is wrong with the source text. -/
inductive LexicalCause where
  /-- A line shallower than its block and on the level of no enclosing block. -/
  | inconsistentIndentation
  | unterminatedString
  /-- A character that has no single byte. -/
  | unstorable (code : Nat)
  | incompleteEscape
  | invalidEscape (b : UInt8)
  | invalidHexEscape (high low : UInt8)
deriving DecidableEq, Repr

/-- The message of a lexical error. -/
def LexicalCause.message : LexicalCause → Bytes
  | .inconsistentIndentation => "inconsistent indentation"
  | .unterminatedString => "unterminated string"
  | .unstorable code =>
    "character " ++ Text.quoteChar code ++ " cannot be stored in a string"
  | .incompleteEscape => "incomplete escape"
  | .invalidEscape b => "invalid escape \\" ++ Text.Utf8.encode b.toNat
  | .invalidHexEscape high low =>
    "invalid escape \\x" ++ Text.Utf8.encode high.toNat ++ Text.Utf8.encode low.toNat

/-- A lexical error at its place. -/
structure LexicalError where
  cause : LexicalCause
  line : Nat
  column : Nat
deriving DecidableEq, Repr

/-- The full text of a lexical error. -/
def LexicalError.text (e : LexicalError) : Bytes :=
  "line " ++ Bytes.decimal e.line ++ ": " ++ e.cause.message

/-- A blank inside a line. -/
def isSpace (b : UInt8) : Bool := b == ' '.toUInt8 || b == '\t'.toUInt8 || b == '\r'.toUInt8

/-- Whether a byte ends a word. -/
def isDelimiter (b : UInt8) : Bool :=
  isSpace b || b == '\n'.toUInt8 || b == '#'.toUInt8 || b == '('.toUInt8 || b == ')'.toUInt8 ||
  b == ','.toUInt8 || b == '['.toUInt8 || b == ']'.toUInt8

/-- The columns a blank adds to the indentation. -/
def blankWidth (b : UInt8) : Nat :=
  if b = ' '.toUInt8 then 1 else if b = '\t'.toUInt8 then 4 else 0

/-- The value of a hexadecimal digit. -/
def hexDigitValue (b : UInt8) : UInt8 := ((digitValue b).getD 0).toUInt8

/-- The byte of a short escape. -/
def escapeValue (b : UInt8) : Option UInt8 :=
  if b = '\\'.toUInt8 || b = '"'.toUInt8 then some b
  else if b = 'n'.toUInt8 then some 10
  else if b = 'r'.toUInt8 then some 13
  else if b = 't'.toUInt8 then some 9
  else none

/-- Reads a string literal after its opening quote: the bytes it stands for, and the
source after the closing quote. `start` is the column of the opening quote and
`column` that of the next byte. A character is stored as the byte of its number. -/
@[simp] def stringBody (line start : Nat) : Nat → Bytes → Except LexicalError (Bytes × Bytes)
  | _, [] => .error ⟨.unterminatedString, line, start⟩
  | column, b :: rest =>
    if b = '\n'.toUInt8 then .error ⟨.unterminatedString, line, start⟩
    else if b = '"'.toUInt8 then .ok ([], rest)
    else if b = '\\'.toUInt8 then
      match rest with
      | [] => .error ⟨.incompleteEscape, line, column + 1⟩
      | letter :: rest =>
        if letter = '\n'.toUInt8 then .error ⟨.incompleteEscape, line, column + 1⟩
        else if letter = 'x'.toUInt8 then
          match rest with
          | high :: low :: rest =>
            if isHexDigit high && isHexDigit low then do
              let (value, rest) ← stringBody line start (column + 4) rest
              return ((hexDigitValue high <<< 4 ||| hexDigitValue low) :: value, rest)
            else .error ⟨.invalidHexEscape high low, line, column + 2⟩
          | _ => .error ⟨.incompleteEscape, line, column + 2⟩
        else match escapeValue letter with
          | some v => do
            let (value, rest) ← stringBody line start (column + 2) rest
            return (v :: value, rest)
          | none => .error ⟨.invalidEscape letter, line, column + 2⟩
    else if b < 0x80 then do
      let (value, rest) ← stringBody line start (column + 1) rest
      return (b :: value, rest)
    else
      match Text.Utf8.decode b rest, rest with
      | some (code, 1), _ :: rest =>
        if code ≤ 0xff then do
          let (value, rest) ← stringBody line start (column + 2) rest
          return (code.toUInt8 :: value, rest)
        else .error ⟨.unstorable code, line, column⟩
      | some (code, _), _ => .error ⟨.unstorable code, line, column⟩
      | none, _ => .error ⟨.unstorable 0xfffd, line, column⟩

/-- The scanner's state. -/
structure Scanner where
  /-- The source still to be read. -/
  rest : Bytes
  line : Nat := 1
  /-- The column of the next byte, from 1. -/
  column : Nat := 1
  /-- The widths of the open indented blocks, the innermost first. -/
  indents : List Nat := []
  /-- Tokens found and not yet handed out. -/
  pending : List Token := []
  atLineStart : Bool := true
  done : Bool := false
deriving DecidableEq, Repr

namespace Scanner

/-- A token at the next byte. -/
def tokenHere (s : Scanner) (kind : TokenKind) (literal : Bytes) : Token :=
  { kind, literal, line := s.line, column := s.column }

/-- Queues a token at the next byte. -/
def emit (s : Scanner) (kind : TokenKind) (literal : Bytes := []) : Scanner :=
  { s with pending := s.pending ++ [s.tokenHere kind literal] }

/-- Moves over `count` bytes of the line. -/
def advance (s : Scanner) (count : Nat) : Scanner :=
  { s with rest := s.rest.drop count, column := s.column + count }

/-- Moves over the newline to the start of the next line. -/
def nextLine (s : Scanner) : Scanner :=
  { s with rest := s.rest.drop 1, line := s.line + 1, column := 1, atLineStart := true }

/-- Moves to the end of the line. -/
def skipComment (s : Scanner) : Scanner :=
  s.advance (s.rest.takeWhile (· != '\n'.toUInt8)).length

/-- Queues the ends of the blocks that are deeper than `width`. -/
def closeDeeper (width : Nat) (s : Scanner) : List Nat → Scanner
  | [] => { s with indents := [] }
  | level :: outer =>
    if width < level then closeDeeper width (s.emit .dedent) outer
    else { s with indents := level :: outer }

/-- Closes the last line and every open block. -/
def finish (s : Scanner) : Scanner :=
  let s := if s.atLineStart then s else { s.emit .newline with atLineStart := true }
  { (closeDeeper 0 s s.indents).emit .finish with done := true }

/-- Compares the indentation of a line that holds tokens with the open blocks. -/
def indentTo (s : Scanner) (width : Nat) : Except LexicalError Scanner :=
  let level := s.indents.headD 0
  let s := { s with atLineStart := false }
  if level < width then .ok { s.emit .indent with indents := width :: s.indents }
  else if width < level then
    let closed := closeDeeper width s s.indents
    if closed.indents.headD 0 = width then .ok closed
    else .error ⟨.inconsistentIndentation, s.line, s.column⟩
  else .ok s

/-- Reads the blanks at the start of a line. -/
def scanIndentation (s : Scanner) : Except LexicalError Scanner :=
  let blanks := s.rest.takeWhile isSpace
  let s := s.advance blanks.length
  match s.rest with
  | [] => .ok s.finish
  | b :: _ =>
    if b = '\n'.toUInt8 then .ok (s.emit .newline).nextLine
    else if b = '#'.toUInt8 then
      let s := s.skipComment
      .ok (if s.rest.isEmpty then s else (s.emit .newline).nextLine)
    else s.indentTo (blanks.foldr (fun b width => blankWidth b + width) 0)

/-- The kind of a token that is a single byte. -/
def punctuation (b : UInt8) : Option TokenKind :=
  if b = '('.toUInt8 then some .leftParen
  else if b = ')'.toUInt8 then some .rightParen
  else if b = ','.toUInt8 then some .comma
  else if b = '['.toUInt8 then some .leftBracket
  else if b = ']'.toUInt8 then some .rightBracket
  else none

/-- Reads a string literal. -/
def scanString (s : Scanner) : Except LexicalError Scanner := do
  let (value, rest) ← stringBody s.line s.column (s.column + 1) (s.rest.drop 1)
  let literal := s.rest.take (s.rest.length - rest.length)
  let token := { s.tokenHere .string literal with value }
  return { s.advance literal.length with pending := s.pending ++ [token] }

/-- Reads a word. -/
def scanWord (s : Scanner) : Scanner :=
  let word := s.rest.takeWhile (!isDelimiter ·)
  (s.emit (TokenKind.ofWord word) word).advance word.length

/-- Reads on inside a line: at most one token, or the end of the text. -/
def scanInLine (s : Scanner) : Except LexicalError Scanner :=
  let s := s.advance (s.rest.takeWhile isSpace).length
  match s.rest with
  | [] => .ok s.finish
  | b :: _ =>
    if b = '\n'.toUInt8 then .ok (s.emit .newline).nextLine
    else if b = '#'.toUInt8 then .ok s.skipComment
    else if b = '"'.toUInt8 then s.scanString
    else match punctuation b with
      | some kind => .ok ((s.emit kind [b]).advance 1)
      | none => .ok s.scanWord

/-- Reads on by one piece of the source. -/
def scan (s : Scanner) : Except LexicalError Scanner :=
  if s.atLineStart then s.scanIndentation else s.scanInLine

/-- The next token after at most `fuel` pieces. -/
def nextWithin : Nat → Scanner → Except LexicalError (Token × Scanner)
  | fuel, s =>
    match s.pending with
    | token :: rest => .ok (token, { s with pending := rest })
    | [] =>
      if s.done then .ok (s.tokenHere .finish [], s)
      else match fuel with
        | 0 => .ok (s.tokenHere .finish [], s)
        | fuel + 1 => do nextWithin fuel (← s.scan)

/-- The next token; after the end of the text it is always the end. Only the start of
a line and a comment queue no token, and what follows either of them does, so two
pieces are enough. -/
def next (s : Scanner) : Except LexicalError (Token × Scanner) := nextWithin 2 s

end Scanner

/-- A scanner at the start of a source text. -/
def Scanner.ofSource (source : Bytes) : Scanner := { rest := source }

/-- The tokens a scanner hands out, up to the end of the text, an error, or `fuel` of them. -/
def Scanner.tokensWithin : Nat → Scanner → List Token × Option LexicalError
  | 0, _ => ([], none)
  | fuel + 1, s =>
    match s.next with
    | .error e => ([], some e)
    | .ok (token, s) =>
      if token.kind = .finish then ([token], none)
      else
        let (tokens, failure) := s.tokensWithin fuel
        (token :: tokens, failure)

/-- The tokens of a source text, up to its end or the first error. Each byte gives at
most a token, a newline, and an indentation that is opened and closed again. -/
def tokenize (source : Bytes) : List Token × Option LexicalError :=
  (Scanner.ofSource source).tokensWithin (4 * source.length + 4)

end Terrace
