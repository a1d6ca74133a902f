/-
# Parsing expressions

An expression is an operand, or an operand, an operator and a whole expression:
chains group to the right and no operator binds tighter than another. A sign in
front applies to the whole chain. Sizes are checked as soon as both operands are
known.

Parsers of parts take the parser of expressions as an argument; `Parse.expression`
ties the knot, and consumes a token before each inner expression.

Key definitions: `binaryShape`, `Parse.operand`, `Parse.chain`, `Parse.expression`.
-/
import Terrace.Source.Literal
import Terrace.Source.Parse

namespace Terrace

/-- The binary operator a token stands for. -/
def Token.binaryOp? (token : Token) : Option BinaryOp :=
  match token.kind with
  | .operator => BinaryOp.ofSymbol? token.literal
  | .identifier =>
    if token.literal == BinaryOp.and.symbol then some .and
    else if token.literal == BinaryOp.or.symbol then some .or
    else none
  | _ => none

/-- The operator in front of an operand a token stands for. -/
def Token.unaryOp? (token : Token) : Option UnaryOp :=
  if token.isWord UnaryOp.not.symbol then some .not
  else if token.isOperator UnaryOp.minus.symbol then some .minus
  else if token.isOperator UnaryOp.invert.symbol then some .invert
  else none

/-- What a binary operator leaves, given the sizes of its operands. -/
def binaryShape (operator : BinaryOp) (left right : Int) : Except SizeCause Shape :=
  if left = 0 || right = 0 then .error (.operandNothing operator.symbol)
  else match operator with
    | .compare _ => if left ≠ right then .error (.comparison left right) else .ok (.scalar 1)
    | .arithmetic _ =>
      if left ≠ right then .error (.operandsDiffer operator.symbol left right)
      else .ok (.scalar left)
    | .and | .or =>
      if left ≠ 1 || right ≠ 1 then .error (.operandsNotByte operator.symbol)
      else .ok (.scalar 1)
    | .bitwise _ => .ok (.scalar right)
    | .shift _ => if right ≠ 1 then .error (.shiftAmount right) else .ok (.scalar left)

/-- What an operator in front of an operand leaves, given its size. -/
def unaryShape (operator : UnaryOp) (size : Int) : Except SizeCause Shape :=
  if size = 0 then .error (.operandNothing operator.symbol)
  else if operator = .not && size ≠ 1 then .error (.notOperand size)
  else .ok (.scalar size)

/-- An expression and what it leaves on the stack. -/
abbrev Typed := Expression × Shape

namespace Parse

/-- Stops with the size error of a check, at a token. -/
def checked {α : Type} (token : Token) : Except SizeCause α → Parse α
  | .ok a => pure a
  | .error cause => failSize token cause

section
variable (expression : Parse (Option Typed))

/-- An expression that must be there. -/
def required (after : Bytes) : Parse Typed := do
  let token ← peek
  match ← expression with
  | some typed => return typed
  | none => failGrammar token (.expectedExpression after token)

/-- An index between brackets, of one or two bytes. -/
def index : Parse Typed := do
  let bracket ← next
  let (e, shape) ← required expression "["
  if shape.size ≠ 1 && shape.size ≠ 2 then failSize bracket (.index shape.size)
  expect .rightBracket "]"
  return (e, shape)

/-- The argument for a parameter. An array is passed by the address of a variable. -/
def argument (function : Bytes) (parameter : Variable) : Parse Expression := do
  let token ← peek
  if !parameter.isReference then
    let (e, shape) ← required expression "("
    if shape.size ≠ parameter.size then
      failSize token (.argument parameter.name function parameter.size shape.size)
    return e
  else
    match ((← get).tokenPlace? token).filter (·.slot.isArray) with
    | none => failSize token (.argumentNotArray parameter.name function)
    | some place =>
      if place.slot.elementSize ≠ parameter.elementSize then
        failSize token
          (.argumentElements parameter.name function parameter.elementSize place.slot.elementSize)
      let _ ← next
      return .addressOf place

/-- The arguments after the first, each behind a comma. -/
def moreArguments (function : Bytes) (count : Nat) : List Variable → Parse (List Expression)
  | [] => return []
  | parameter :: parameters => do
    let token ← next
    if token.kind ≠ .comma then failGrammar token (.argumentCount function count)
    let e ← argument expression function parameter
    return e :: (← moreArguments function count parameters)

/-- The arguments of a call. -/
def arguments (function : Bytes) (parameters : List Variable) : Parse (List Expression) :=
  match parameters with
  | [] => return []
  | first :: rest => do
    let e ← argument expression function first
    return e :: (← moreArguments expression function parameters.length rest)

/-- A call of a function. -/
def call (callee : Nat) (f : Function) : Parse (Option Typed) := do
  let nameToken ← next
  expect .leftParen ("( after " ++ f.name)
  let parameters := f.parameters.slots
  let values ← arguments expression f.name parameters
  let token ← next
  if token.kind = .comma then failGrammar token (.argumentCount f.name parameters.length)
  if token.kind ≠ .rightParen then failGrammar token (.expectedCallEnd f.name token)
  if !f.returnKnown then failSize nameToken (.calledTooEarly f.name)
  let elementSize := if f.returnArray then 1 else f.returnSize
  return some (.call callee values, { size := f.returnSize, elementSize, isArray := f.returnArray })

/-- The registers of a system call, at most `count` of them; those not given are zero. -/
def registers : Nat → Parse (List Expression)
  | 0 => return []
  | count + 1 => do
    if (← peek).kind = .comma then
      let _ ← next
      let token ← peek
      let (e, shape) ← required expression ","
      if shape.size ≠ 1 then failSize token (.callRegister shape.size)
      return e :: (← registers count)
    else return List.replicate (count + 1) (.literal [0])

/-- A system call: an address and up to three registers. -/
def systemCall : Parse (Option Typed) := do
  let word ← next
  expect .leftParen "( after _call"
  let token ← peek
  match ← expression with
  | none => failGrammar word .noCallAddress
  | some (address, shape) =>
    if shape.size ≠ 2 then failSize token (.callAddress shape.size)
    let given ← registers expression 3
    expect .rightParen ") after _call arguments"
    let register (i : Nat) : Expression := given.getD i (.literal [0])
    return some (.systemCall address (register 0) (register 1) (register 2), .scalar 1)

/-- The address of a variable. -/
def addressOf : Parse (Option Typed) := do
  let _ ← next
  expect .leftParen "( after _addr"
  let token ← next
  match (← get).tokenPlace? token with
  | none => failGrammar token (.needsVariable token)
  | some place =>
    expect .rightParen ") after _addr"
    return some (.addressOf place, .scalar 2)

/-- An address of two bytes for `_load` or `_store`. -/
def memoryAddress (builtin : Bytes) : Parse Expression := do
  let token ← peek
  let (e, shape) ← required expression ","
  if shape.size ≠ 2 then failSize token (.memoryAddress builtin shape.size)
  return e

/-- The number of bytes that a token asks to load. -/
def loadSize? (token : Token) : Option Int :=
  if token.kind = .number then
    (literalValue? token.literal).filter fun size => 1 ≤ size && size ≤ maxListSize
  else none

/-- Bytes at an address. -/
def loadMemory : Parse (Option Typed) := do
  let _ ← next
  expect .leftParen "( after _load"
  let token ← next
  match loadSize? token with
  | none => failGrammar token (.loadSize token)
  | some size =>
    expect .comma ", after _load size"
    let address ← memoryAddress expression "_load"
    expect .rightParen ") after _load"
    return some (.loadMemory size address, .scalar size)

/-- A value stored at an address. -/
def storeMemory : Parse (Option Typed) := do
  let word ← next
  expect .leftParen "( after _store"
  let (value, shape) ← required expression "("
  if shape.size = 0 then failSize word .storedNothing
  expect .comma ", after _store value"
  let address ← memoryAddress expression "_store"
  expect .rightParen ") after _store"
  return some (.storeMemory value shape.size address, .nothing)

/-- A variable, or an element of one. -/
def variableOperand (token : Token) : Parse (Option Typed) := do
  match (← get).place? token.literal with
  | none => failGrammar token (.undefinedName token.literal)
  | some place =>
    let _ ← next
    let after ← peek
    let slot := place.slot
    if after.kind = .leftBracket then
      if !slot.isArray then failSize after (.notArray slot.name)
      let (e, shape) ← index expression
      return some (.element place e shape.size, .scalar slot.elementSize)
    else if slot.isReference then return some (.load place, .scalar 2)
    else return some (.load place, {
      size := slot.size, elementSize := slot.elementSize, isArray := slot.isArray })

/-- An operand that starts with a word. -/
def wordOperand (token : Token) : Parse (Option Typed) := do
  let constant (b : UInt8) : Parse (Option Typed) := do
    let _ ← next
    return some (.literal [b], .scalar 1)
  if token.literal == "True" then constant 0xff
  else if token.literal == "False" then constant 0
  else if token.literal == "_call" then systemCall expression
  else if token.literal == "_addr" then addressOf
  else if token.literal == "_load" then loadMemory expression
  else if token.literal == "_store" then storeMemory expression
  else if isReserved token.literal then return none
  else match (← get).callee? token.literal with
    | some (callee, f) => call expression callee f
    | none => variableOperand expression token

/-- A literal, a variable, a call or an expression in parentheses. Consumes nothing if
none of them starts here. -/
def operand : Parse (Option Typed) := do
  let token ← peek
  match token.kind with
  | .number =>
    let _ ← next
    match encodeNumber token.literal with
    | none => failSize token (.numberRange token.literal)
    | some value => return some (.literal value, .scalar value.length)
  | .string =>
    let _ ← next
    let length := token.value.length
    if maxListSize < length then failSize token (.stringLength length)
    return some (.literal token.value, { size := length, elementSize := 1, isArray := true })
  | .leftParen =>
    let _ ← next
    let typed ← required expression "("
    expect .rightParen ")"
    return some typed
  | .identifier => wordOperand expression token
  | _ => return none

/-- An operand, and the rest of the chain if an operator follows. -/
def chain : Parse (Option Typed) := do
  match ← operand expression with
  | none => return none
  | some (left, leftShape) =>
    let token ← peek
    match token.binaryOp? with
    | none => return some (left, leftShape)
    | some operator =>
      let _ ← next
      let (right, rightShape) ← required expression token.literal
      let shape ← checked token (binaryShape operator leftShape.size rightShape.size)
      return some (.binary operator left right leftShape.size rightShape.size, shape)

/-- A chain, behind an operator or not. -/
def signedChain : Parse (Option Typed) := do
  let token ← peek
  match token.unaryOp? with
  | none => chain expression
  | some operator =>
    let _ ← next
    match ← chain expression with
    | none => failGrammar (← peek) (.expectedOperand token.literal)
    | some (e, shape) =>
      let result ← checked token (unaryShape operator shape.size)
      return some (.unary operator e shape.size, result)

end

/-- An expression, if one starts here, with at most `fuel` expressions inside each other. -/
def expressionWithin : Nat → Parse (Option Typed)
  | 0 => exhausted
  | fuel + 1 => signedChain (expressionWithin fuel)

/-- An expression, if one starts here. -/
def expression : Parse (Option Typed) := do expressionWithin (← get).limit

end Parse

end Terrace
