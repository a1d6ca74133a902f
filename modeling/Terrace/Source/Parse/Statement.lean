/-
# Parsing statements

A statement is a condition or a loop with indented blocks, a return, an assignment
or an expression whose value is dropped. An assignment is tried first; if the tokens
turn out to be none, the parser goes back to where it started. The first assignment
to a name declares the variable.

Key definitions: `Parse.assignment`, `Parse.simpleStatement`, `Parse.block`,
`Parse.statement`.
-/
import Terrace.Source.Parse.Expression

namespace Terrace.Parse

/-- An assignment to an element of an array that exists; none if the tokens are not one. -/
def elementAssignment (nameToken : Token) (global : Bool) : Parse (Option Statement) := do
  match ((← get).assignedPlace? global nameToken.literal).filter (·.slot.isArray) with
  | none => return none
  | some place =>
    let (i, indexShape) ← index expression
    if !(← peek).isOperator "=" then return none
    let _ ← next
    let (value, shape) ← required expression "="
    if shape.size ≠ place.slot.elementSize then
      failSize nameToken (.elementAssignment shape.size place.slot.name place.slot.elementSize)
    return some (.assignElement place i indexShape.size value)

/-- An assignment to a variable, which is declared if there is none. -/
def variableAssignment (nameToken : Token) (global : Bool) : Parse (Option Statement) := do
  let name := nameToken.literal
  let _ ← next
  let (value, shape) ← required expression "="
  match (← get).assignedPlace? global name with
  | some place =>
    if place.slot.size ≠ shape.size then
      failSize nameToken (.assignment shape.size name place.slot.size)
    return some (.assign place value)
  | none =>
    if shape.size = 0 then failSize nameToken (.assignedNothing name)
    let place ← declare nameToken global {
      name, size := shape.size, elementSize := shape.elementSize, isArray := shape.isArray }
    return some (.assign place value)

/-- An assignment; none, with some tokens consumed, if the tokens are not one. -/
def assignment (global : Bool) : Parse (Option Statement) := do
  let nameToken ← next
  if nameToken.kind ≠ .identifier || isReserved nameToken.literal then return none
  if ((← get).callee? nameToken.literal).isSome then return none
  let token ← peek
  if token.kind = .leftBracket then elementAssignment nameToken global
  else if token.isOperator "=" then variableAssignment nameToken global
  else return none

/-- An assignment; none, and no token consumed, if the tokens are not one. -/
def tryAssignment (global : Bool) : Parse (Option Statement) := do
  let mark := (← get).buffer.mark
  match ← assignment global with
  | some statement => return some statement
  | none =>
    modify fun s => { s with buffer := s.buffer.rewind mark }
    return none

/-- Consumes the word `global`, if it is next. -/
def globalWord : Parse Bool := do
  let token ← peek
  if token.isWord "global" then
    if (← get).current.isNone then failGrammar token .globalOutside
    let _ ← next
    return true
  else return false

/-- An assignment or an expression. -/
def simpleStatement : Parse Statement := do
  let global ← globalWord
  match ← tryAssignment global with
  | some statement =>
    expectSeparator
    return statement
  | none =>
    let token ← peek
    if global then failGrammar token .globalNeedsAssignment
    match ← expression with
    | none => failGrammar token (.expectedStatement token)
    | some (e, shape) =>
      expectSeparator
      return .discard e shape.size

/-- The condition of `if` or `while`, one byte. -/
def condition (keyword : Bytes) : Parse Expression := do
  let token ← peek
  match ← expression with
  | none => failGrammar token (.noCondition keyword)
  | some (e, shape) =>
    if shape.size ≠ 1 then failSize token (.condition keyword shape.size)
    return e

/-- A return; its size must be that of the other returns of the function. -/
def giveBack : Parse Statement := do
  let word ← next
  match (← get).current with
  | none => failGrammar word .returnOutside
  | some f =>
    let token ← peek
    let typed ←
      if token.kind = .newline || token.kind = .finish then pure none
      else match ← expression with
        | none => failGrammar token (.expectedReturnValue token)
        | some typed => pure (some typed)
    let shape := (typed.map (·.2)).getD .nothing
    match f.setReturn shape.size shape.isArray with
    | .error error => failSize word (.symbol error)
    | .ok f =>
      modify fun s => { s with current := some f }
      expectSeparator
      return .giveBack (typed.map (·.1))

section
variable (statement : Parse Statement)

/-- The statements of a block up to its end, at most as many as the fuel. -/
def blockRest : Nat → Parse (List Statement)
  | 0 => exhausted
  | fuel + 1 => do
    let token ← skipNewlines
    match token.kind with
    | .dedent =>
      let _ ← next
      return []
    | .finish => failGrammar token .endInBlock
    | _ =>
      if token.isWord "def" then failGrammar token .nestedDefinition
      let first ← statement
      return first :: (← blockRest fuel)

/-- An indented block of statements. -/
def block : Parse (List Statement) := do
  let token ← skipNewlines
  if token.kind ≠ .indent then failGrammar token (.expectedBlock token)
  let _ ← next
  blockRest statement (← get).limit

/-- A block that is executed under a condition, and perhaps another one. -/
def conditional : Parse Statement := do
  let _ ← next
  let e ← condition "if"
  expectSeparator
  let body ← block statement
  if (← peek).isWord "else" then
    let _ ← next
    expectSeparator
    return .ifElse e body (← block statement)
  else return .ifThen e body

/-- A block that is repeated. -/
def loop : Parse Statement := do
  let _ ← next
  let e ← condition "while"
  expectSeparator
  return .whileLoop e (← block statement)

/-- A statement of any form. -/
def anyStatement : Parse Statement := do
  let token ← peek
  if token.kind = .indent then failGrammar token .unexpectedIndentation
  else if token.isWord "if" then conditional statement
  else if token.isWord "while" then loop statement
  else if token.isWord "return" then giveBack
  else simpleStatement

end

/-- A statement with at most `fuel` blocks inside each other. -/
def statementWithin : Nat → Parse Statement
  | 0 => exhausted
  | fuel + 1 => anyStatement (statementWithin fuel)

/-- A statement. -/
def statement : Parse Statement := do statementWithin (← get).limit

end Terrace.Parse
