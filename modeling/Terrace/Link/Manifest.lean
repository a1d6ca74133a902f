/-
# Manifests

Files that are packaged with a linked program. A line names an object, perhaps
behind the file it is built from, and its load and execution addresses; blank lines
are skipped. The text is first cut into tokens, so a character that belongs to no
token is reported before any misplaced one.

Key definitions: `ManifestToken`, `manifestTokens`, `ManifestEntry`, `ManifestError`,
`Manifest.parse`.
-/
import Terrace.Text.Numeral
import Terrace.Text.Quoted

namespace Terrace

/-- The kinds of tokens in a manifest. -/
inductive ManifestTokenKind where
  | address
  | lineEnd
  | name
deriving DecidableEq, Repr

/-- How messages refer to a kind of token. -/
def ManifestTokenKind.description : ManifestTokenKind → Bytes
  | .address => "<address>"
  | .lineEnd => "<eol>"
  | .name => "<name>"

/-- A token with its place; columns count characters from 1. -/
structure ManifestToken where
  kind : ManifestTokenKind
  text : Bytes
  line : Nat
  column : Nat
deriving DecidableEq, Repr

/-- What is wrong with a manifest. -/
inductive ManifestError where
  /-- A character that starts no token. -/
  | invalidToken (code line column : Nat)
  /-- A token in the wrong place, and what could stand there if that is one kind. -/
  | unexpected (token : ManifestToken) (expected : Option ManifestTokenKind)
  | loadAddress (line : Nat) (text : Bytes)
  | executionAddress (line : Nat) (text : Bytes)
deriving DecidableEq, Repr

/-- The message of a manifest error. -/
def ManifestError.message (e : ManifestError) : Bytes :=
  let place (line column : Nat) : Bytes :=
    "invalid manifest entry at " ++ Bytes.decimal line ++ ":" ++ Bytes.decimal column ++ ": "
  match e with
  | .invalidToken code line column =>
    place line column ++ "invalid token " ++ Text.quoteChar code
  | .unexpected token expected =>
    let hint : Bytes := match expected with
      | some kind => " (expected " ++ kind.description ++ ")"
      | none => []
    place token.line token.column ++ "unexpected token " ++ Text.quote token.text ++ hint
  | .loadAddress line text =>
    "invalid load address at line " ++ Bytes.decimal line ++ ": " ++ text
      ++ " does not fit in 16 bits"
  | .executionAddress line text =>
    "invalid execution address at line " ++ Bytes.decimal line ++ ": " ++ text
      ++ " does not fit in 16 bits"

/-- The blanks between tokens. -/
def isManifestBlank (b : UInt8) : Bool :=
  b == ' '.toUInt8 || b == '\t'.toUInt8 || b == '\r'.toUInt8

/-- Whether a byte ends a name: the blanks, the newline and the form feed. -/
def endsManifestName (b : UInt8) : Bool := isManifestBlank b || b == '\n'.toUInt8 || b == 12

/-- The longest address at the start of a text: `0x` and at least one digit. -/
def addressStart? : Bytes → Option Bytes
  | zero :: mark :: digit :: rest =>
    if zero = '0'.toUInt8 && (mark = 'x'.toUInt8 || mark = 'X'.toUInt8) && isHexDigit digit then
      some (zero :: mark :: digit :: rest.takeWhile isHexDigit)
    else none
  | _ => none

/-- The token at the start of a text that is not blank there. -/
def firstToken? (line column : Nat) (text : Bytes) : Option ManifestToken :=
  match text with
  | [] => none
  | b :: _ =>
    match addressStart? text with
    | some address => some { kind := .address, text := address, line, column }
    | none =>
      if b = '\n'.toUInt8 then some { kind := .lineEnd, text := [b], line, column }
      else if endsManifestName b then none
      else some { kind := .name, text := text.takeWhile (!endsManifestName ·), line, column }

/-- The tokens of a text from a place on, at most `fuel` pieces of it. -/
def manifestTokensWithin : Nat → Nat → Nat → Bytes → Except ManifestError (List ManifestToken)
  | 0, _, _, _ => .ok []
  | _, _, _, [] => .ok []
  | fuel + 1, line, column, b :: rest =>
    if isManifestBlank b then manifestTokensWithin fuel line (column + 1) rest
    else match firstToken? line column (b :: rest) with
      | none => .error (.invalidToken b.toNat line column)
      | some token =>
        let after := (b :: rest).drop token.text.length
        let following :=
          if token.kind = .lineEnd then manifestTokensWithin fuel (line + 1) 1 after
          else manifestTokensWithin fuel line (column + Text.Utf8.count token.text) after
        match following with
        | .error e => .error e
        | .ok tokens => .ok (token :: tokens)

/-- The tokens of a text. Each piece takes at least one byte. -/
def manifestTokens (text : Bytes) : Except ManifestError (List ManifestToken) :=
  manifestTokensWithin text.length 1 1 text

/-- A file packaged with a program. -/
structure ManifestEntry where
  /-- The file the object is built from, or empty. -/
  source : Bytes := []
  object : Bytes
  load : UInt16
  exec : UInt16
deriving DecidableEq, Repr

/-- The tokens of each line, with the one that ends it. -/
def manifestLines : List ManifestToken → List (List ManifestToken × ManifestToken)
  | [] => []
  | token :: rest =>
    if token.kind = .lineEnd then ([], token) :: manifestLines rest
    else match manifestLines rest with
      | [] => []
      | (tokens, stop) :: lines => (token :: tokens, stop) :: lines

/-- The first token of a line, if it is of a kind. -/
def takeToken (stop : ManifestToken) (kind : ManifestTokenKind) (tokens : List ManifestToken) :
    Except ManifestError (ManifestToken × List ManifestToken) :=
  match tokens with
  | [] => .error (.unexpected stop (some kind))
  | token :: rest =>
    if token.kind = kind then .ok (token, rest) else .error (.unexpected token (some kind))

/-- The parts of a line before their addresses are read. -/
structure ManifestRow where
  names : List ManifestToken
  load : ManifestToken
  exec : ManifestToken

/-- The parts of a line; none for a blank one. -/
def manifestRow (tokens : List ManifestToken) (stop : ManifestToken) :
    Except ManifestError (Option ManifestRow) := do
  match tokens with
  | [] => return none
  | first :: rest =>
    if first.kind ≠ .name then .error (.unexpected first none)
    let second := rest.takeWhile (·.kind = .name) |>.take 1
    let (load, rest) ← takeToken stop .address (rest.drop second.length)
    let (exec, rest) ← takeToken stop .address rest
    match rest with
    | [] => return some { names := first :: second, load, exec }
    | extra :: _ => .error (.unexpected extra (some .lineEnd))

/-- The value of an address token; none if it does not fit in 16 bits. -/
def ManifestToken.value? (token : ManifestToken) : Option UInt16 :=
  (Text.Numeral.readDigits 16 0xffff (token.text.drop 2)).toOption.map Nat.toUInt16

/-- The entry of a line. -/
def ManifestRow.entry (row : ManifestRow) : Except ManifestError ManifestEntry :=
  let line := (row.names.head?.map (·.line)).getD 0
  match row.load.value?, row.exec.value? with
  | none, _ => .error (.loadAddress line row.load.text)
  | _, none => .error (.executionAddress line row.exec.text)
  | some load, some exec =>
    match row.names.map (·.text) with
    | [source, object] => .ok { source, object, load, exec }
    | names => .ok { object := names.headD [], load, exec }

/-- The entries of a manifest; its last line need not end with a newline. -/
def Manifest.parse (text : Bytes) : Except ManifestError (List ManifestEntry) := do
  let complete : Bytes :=
    if text.isEmpty || text.endsWith "\n" then text else text ++ "\n"
  let lines := manifestLines (← manifestTokens complete)
  let rows ← lines.mapM fun (tokens, stop) => manifestRow tokens stop
  (rows.filterMap id).mapM ManifestRow.entry

end Terrace
