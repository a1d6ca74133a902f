/-
# Parsing programs

A program is a sequence of include lines and function definitions, then the main
block. An include line puts the definitions of another file in its place; that file
has its own tokens and may itself include files. A file cannot be opened while it is
open, so inclusions end.

Key definitions: `Parse.parameter`, `Parse.definition`, `Parse.includeFile`,
`Parse.program`, `Program.parse`.
-/
import Terrace.Source.Parse.Statement

namespace Terrace

namespace Parse

/-- A parameter with its type. -/
def parameter (parameters : VariableList) : Parse VariableList := do
  let nameToken ← next
  if isReserved nameToken.literal then failGrammar nameToken (.parameterName nameToken)
  expect .leftParen "( after parameter name"
  let typeToken ← next
  let type? :=
    if typeToken.kind = .identifier then ParameterType.ofName? typeToken.literal else none
  match type? with
  | none => failGrammar typeToken (.parameterType typeToken)
  | some type =>
    expect .rightParen ") after parameter type"
    if (parameters.index? nameToken.literal).isSome then
      failGrammar nameToken (.duplicateParameter nameToken.literal)
    let slot := {
      name := nameToken.literal, size := type.size, elementSize := type.elementSize
      isArray := type.isArray, isReference := type.isArray }
    match parameters.add slot with
    | .error error => failSize nameToken (.symbol error)
    | .ok (_, parameters) => return parameters

/-- The parameters of a function after those given, at most as many as the fuel. -/
def parametersWithin : Nat → VariableList → Parse VariableList
  | 0, _ => exhausted
  | fuel + 1, parameters => do
    if (← peek).kind = .identifier then parametersWithin fuel (← parameter parameters)
    else return parameters

/-- The name of a function that is not taken. -/
def functionName : Parse Token := do
  let token ← next
  let name := token.literal
  if token.kind ≠ .identifier || isReserved name then failGrammar token (.functionName token)
  let s ← get
  if (s.functions.lookup? name).isSome then failGrammar token (.functionDefined name)
  if (s.globals.index? name).isSome then failGrammar token (.alreadyVariable name)
  return token

/-- Ends the current function: falling off its end returns zero, so its result is
known, and its frame must fit. -/
def finishFunction (nameToken : Token) (f : Function) (body : List Statement) : Parse Unit := do
  let size := f.parameterSize + f.locals.totalSize + f.returnSize
  if maxListSize < size then failSize nameToken (.frameTooLarge f.name size)
  modify fun s => { s with
    current := none
    definitions := s.definitions ++ [{ function := { f with returnKnown := true }, body }] }
  report "Function defined" [
    ("name", f.name), ("params", Bytes.decimalInt f.parameterSize),
    ("locals", Bytes.decimalInt f.locals.totalSize), ("returns", Bytes.decimalInt f.returnSize)]

/-- A function definition. -/
def definition : Parse Unit := do
  let _ ← next
  let nameToken ← functionName
  let parameters ← parametersWithin (← get).limit {}
  expectSeparator
  modify fun s => { s with current := some { name := nameToken.literal, parameters } }
  let body ← block statement
  match (← get).current with
  | none => pure ()
  | some f => finishFunction nameToken f body

/-- Include lines and definitions, at most as many as the fuel, up to something else. -/
def definitionsWithin (includeLine : Parse Unit) : Nat → Parse Unit
  | 0 => exhausted
  | fuel + 1 => do
    let token ← skipNewlines
    if token.isWord "include" then
      includeLine
      commit
      definitionsWithin includeLine fuel
    else if token.isWord "def" then
      definition
      commit
      definitionsWithin includeLine fuel

/-- Include lines and definitions up to something else. -/
def definitions (includeLine : Parse Unit) : Parse Unit := do
  definitionsWithin includeLine (← get).limit

/-- The file an include line names, with its text; it is open now. -/
def openIncluded (loader : Loader) (pathToken : Token) : Parse (SourceFile × Bytes) := do
  match loader.resolve (← get).file pathToken.value with
  | .error error => fail pathToken (.inclusion error)
  | .ok file =>
    match loader.openFile file with
    | .error error => fail pathToken (.inclusion error)
    | .ok (text, loader) =>
      modify fun s => { s with loader := some loader }
      return (file, text)

/-- The definitions of an open file, which is closed afterwards. -/
def spliced (includeLine : Parse Unit) (file : SourceFile) (text : Bytes) : Parse Unit := do
  let outer ← get
  report "Including file" [("file", file.key), ("from", outer.file.key)]
  modify fun s => { s with
    buffer := .ofSource text, file, limit := ParserState.limitOf text }
  definitions includeLine
  let token ← peek
  if token.kind ≠ .finish then failGrammar token .definitionsOnly
  modify fun s => { s with
    buffer := outer.buffer, file := outer.file, limit := outer.limit
    loader := s.loader.map (·.close file) }

/-- An include line. -/
def includeFile (includeLine : Parse Unit) : Parse Unit := do
  let word ← next
  let pathToken ← next
  if pathToken.kind ≠ .string then failGrammar pathToken (.includeNeedsPath pathToken)
  expectSeparator
  match (← get).loader with
  | none => fail word .includesUnavailable
  | some loader =>
    let (file, text) ← openIncluded loader pathToken
    spliced includeLine file text

/-- An include line with at most `depth` files open inside each other. -/
def includeWithin : Nat → Parse Unit
  | 0 => exhausted
  | depth + 1 => includeFile (includeWithin depth)

/-- The statements of the main block, at most as many as the fuel. -/
def mainWithin : Nat → Parse (List Statement)
  | 0 => exhausted
  | fuel + 1 => do
    let token ← skipNewlines
    if token.kind = .finish then return []
    if token.isWord "def" || token.isWord "include" then failGrammar token .lateDefinition
    let first ← statement
    commit
    return first :: (← mainWithin fuel)

/-- A whole program, from a file with this name. -/
def program (fileName : Bytes) : Parse Program := do
  definitions (includeWithin (Loader.depthOf (← get).loader))
  let main ← mainWithin (← get).limit
  let s ← get
  report "Program parsed" [
    ("file", fileName), ("functions", Bytes.decimal s.definitions.length),
    ("globals", Bytes.decimalInt s.globals.totalSize)]
  return { definitions := s.definitions, main, globals := s.globals }

end Parse

/-- Parses a source text; also gives the reports made on the way. Files can be
included if there is a loader. -/
def Program.parse (loader : Option Loader) (source fileName : Bytes) :
    Except ParseError Program × List Record :=
  let file := SourceFile.ofName fileName
  match loader.mapM (·.enter file) with
  | .error error =>
    (.error { cause := .inclusion error, file := fileName, line := 0, column := 0 }, [])
  | .ok loader =>
    match Parse.program fileName {
      buffer := .ofSource source, file, limit := ParserState.limitOf source, loader } with
    | .ok program s => (.ok program, s.records)
    | .error e s => (.error e, s.records)

end Terrace
