/-
# Parsing

The state of a parser and the steps all parsers are made of. A parser reads tokens
from the buffer of the file it is in, resolves names against what is declared so
far, and stops at the first error. Loops are bounded by the length of the text: each
turn consumes a token.

Key definitions: `ParserState`, `Parse`, `Parse.fail`, `Parse.peek`, `Parse.next`,
`Parse.expect`, `Parse.expectSeparator`, `ParserState.place?`, `ParserState.callee?`,
`Parse.declare`.
-/
import Terrace.Source.Diagnostic
import Terrace.Source.Program
import Terrace.Text.Log
import Terrace.Token.Buffer

namespace Terrace

/-- What a parser knows. -/
structure ParserState where
  buffer : TokenBuffer
  /-- The file the tokens come from. -/
  file : SourceFile
  /-- A bound on the turns of any loop over the text of this file. -/
  limit : Nat
  /-- Where included files come from, if they are available. -/
  loader : Option Loader
  globals : VariableList := {}
  /-- The finished definitions, in their order. -/
  definitions : List Definition := []
  /-- The function whose body is being parsed. -/
  current : Option Function := none
  /-- What was reported, oldest first. -/
  records : List Record := []

namespace ParserState

/-- Turns a loop over a text may take. -/
def limitOf (source : Bytes) : Nat := source.length + 2

/-- The functions defined so far, the current one last. -/
def functions (s : ParserState) : FunctionTable :=
  s.definitions.map (·.function) ++ s.current.toList

/-- The function with a name and its number. -/
def callee? (s : ParserState) (name : Bytes) : Option (Nat × Function) := do
  let i ← s.functions.findIdx? (·.name == name)
  return (i, ← s.functions[i]?)

/-- The parameter or local variable with a name. -/
def localPlace? (s : ParserState) (name : Bytes) : Option Place := do
  let f ← s.current
  match f.parameters.lookup? name with
  | some (slot, offset) => return { scope := .frame, slot, offset }
  | none =>
    let (slot, offset) ← f.locals.lookup? name
    return { scope := .frame, slot, offset := f.parameterSize + offset }

/-- The global variable with a name. -/
def globalPlace? (s : ParserState) (name : Bytes) : Option Place := do
  let (slot, offset) ← s.globals.lookup? name
  return { scope := .globals, slot, offset }

/-- The variable with a name; parameters and locals hide globals. -/
def place? (s : ParserState) (name : Bytes) : Option Place :=
  s.localPlace? name <|> s.globalPlace? name

/-- The variable a token names. -/
def tokenPlace? (s : ParserState) (token : Token) : Option Place :=
  if token.kind = .identifier then s.place? token.literal else none

/-- The variable an assignment to a name means, with or without the word `global`. -/
def assignedPlace? (s : ParserState) (global : Bool) (name : Bytes) : Option Place :=
  if global then s.globalPlace? name else s.place? name

end ParserState

/-- A step of a parser; an error leaves the state as it is at that moment. -/
abbrev Parse := EStateM ParseError ParserState

namespace Parse

/-- Stops with a cause at a token of the current file. -/
def fail {α : Type} (token : Token) (cause : ParseCause) : Parse α := do
  throw { cause, file := (← get).file.name, line := token.line, column := token.column }

/-- Stops with a grammar error at a token. -/
def failGrammar {α : Type} (token : Token) (cause : GrammarCause) : Parse α :=
  fail token (.grammar cause)

/-- Stops with a size error at a token. -/
def failSize {α : Type} (token : Token) (cause : SizeCause) : Parse α := fail token (.size cause)

/-- Stops because a loop took more turns than its bound. -/
def exhausted {α : Type} : Parse α := do
  throw { cause := .exhausted, file := (← get).file.name, line := 0, column := 0 }

/-- Reports at debug level. -/
def report (message : Bytes) (attributes : List (Bytes × Bytes)) : Parse Unit :=
  modify fun s => { s with records := s.records ++ [{ level := .debug, message, attributes }] }

/-- Takes over what the buffer answered. -/
def answered (answer : Except LexicalError Token × TokenBuffer) : Parse Token := do
  modify fun s => { s with buffer := answer.2 }
  match answer.1 with
  | .ok token => return token
  | .error e =>
    throw {
      cause := .lexical e.cause, file := (← get).file.name, line := e.line, column := e.column }

/-- The next token, which stays. -/
def peek : Parse Token := do answered (← get).buffer.peek

/-- Consumes the next token. -/
def next : Parse Token := do answered (← get).buffer.next

/-- Forgets the consumed tokens. -/
def commit : Parse Unit := modify fun s => { s with buffer := s.buffer.commit }

/-- Consumes newlines, at most as many as the fuel, and tells the token after them. -/
def skipNewlinesWithin : Nat → Parse Token
  | 0 => exhausted
  | fuel + 1 => do
    let token ← peek
    if token.kind = .newline then
      let _ ← next
      skipNewlinesWithin fuel
    else return token

/-- Consumes newlines and tells the token after them. -/
def skipNewlines : Parse Token := do skipNewlinesWithin (← get).limit

/-- Consumes a token of a kind. -/
def expect (kind : TokenKind) (what : Bytes) : Parse Unit := do
  let token ← next
  if token.kind ≠ kind then failGrammar token (.expected what token)

/-- Consumes the newline after a statement; the end of the text will do. -/
def expectSeparator : Parse Unit := do
  let token ← peek
  match token.kind with
  | .newline => let _ ← next
  | .finish => pure ()
  | _ => failGrammar token (.expectedLineEnd token)

/-- Adds a variable to the locals of the current function, or to the globals. -/
def declare (token : Token) (global : Bool) (slot : Variable) : Parse Place := do
  let s ← get
  match s.current, global with
  | some f, false =>
    match f.locals.add slot with
    | .error error => failSize token (.symbol error)
    | .ok (offset, locals) =>
      set { s with current := some { f with locals } }
      return { scope := .frame, slot, offset := f.parameterSize + offset }
  | _, _ =>
    match s.globals.add slot with
    | .error error => failSize token (.symbol error)
    | .ok (offset, globals) =>
      set { s with globals }
      return { scope := .globals, slot, offset }

end Parse

end Terrace
