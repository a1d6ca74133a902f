/-
# The token buffer

Tokens taken from a scanner and kept, so that a reader can go back to a place it
marked. The scanner is asked only when the kept tokens are used up. The end of the
text is never consumed, and a lexical error stays at its place.

Key definitions: `TokenBuffer`, `TokenBuffer.peek`, `TokenBuffer.next`,
`TokenBuffer.mark`, `TokenBuffer.rewind`, `TokenBuffer.commit`.
-/
import Terrace.Token.Scanner

namespace Terrace

/-- Tokens read ahead of a position. -/
structure TokenBuffer where
  scanner : Scanner
  /-- The tokens kept, oldest first. -/
  tokens : Array Token := #[]
  /-- The place of the next token among them. -/
  position : Nat := 0
  /-- The error the scanner ended with. -/
  failure : Option LexicalError := none
deriving DecidableEq, Repr

namespace TokenBuffer

/-- A buffer at the start of a source text. -/
def ofSource (source : Bytes) : TokenBuffer := { scanner := .ofSource source }

/-- The next token, which stays. -/
def peek (buffer : TokenBuffer) : Except LexicalError Token × TokenBuffer :=
  match buffer.tokens[buffer.position]? with
  | some token => (.ok token, buffer)
  | none =>
    match buffer.failure with
    | some e => (.error e, buffer)
    | none =>
      match buffer.scanner.next with
      | .error e => (.error e, { buffer with failure := some e })
      | .ok (token, scanner) =>
        (.ok token, { buffer with scanner, tokens := buffer.tokens.push token })

/-- Consumes the next token; the end of the text stays. -/
def next (buffer : TokenBuffer) : Except LexicalError Token × TokenBuffer :=
  match buffer.peek with
  | (.error e, buffer) => (.error e, buffer)
  | (.ok token, buffer) =>
    if token.kind = .finish then (.ok token, buffer)
    else (.ok token, { buffer with position := buffer.position + 1 })

/-- The place of the next token, to go back to. -/
def mark (buffer : TokenBuffer) : Nat := buffer.position

/-- Goes back to a marked place. -/
def rewind (buffer : TokenBuffer) (mark : Nat) : TokenBuffer := { buffer with position := mark }

/-- Forgets the consumed tokens; places marked before are no longer valid. -/
def commit (buffer : TokenBuffer) : TokenBuffer :=
  { buffer with tokens := buffer.tokens.extract buffer.position, position := 0 }

end TokenBuffer

end Terrace
