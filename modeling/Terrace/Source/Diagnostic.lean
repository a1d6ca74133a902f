/-
# Diagnostics

What can be wrong with a program, and how it is said. Each cause is of one kind:
lexical, syntax, type or include. An error stands at a line and a column of a file.

Key definitions: `GrammarCause`, `SizeCause`, `ParseCause`, `ParseCause.kind`,
`ParseCause.message`, `ParseError`, `ParseError.text`.
-/
import Terrace.Source.Inclusion
import Terrace.Source.Symbol
import Terrace.Token.Scanner

namespace Terrace

/-- A place in the program where the grammar or the scope of a name is not respected. -/
inductive GrammarCause where
  | lateDefinition
  | includeNeedsPath (found : Token)
  | definitionsOnly
  | functionName (found : Token)
  | functionDefined (name : Bytes)
  | alreadyVariable (name : Bytes)
  | parameterName (found : Token)
  | parameterType (found : Token)
  | duplicateParameter (name : Bytes)
  | expected (what : Bytes) (found : Token)
  | expectedBlock (found : Token)
  | endInBlock
  | nestedDefinition
  | unexpectedIndentation
  | noCondition (keyword : Bytes)
  | returnOutside
  | expectedReturnValue (found : Token)
  | globalOutside
  | globalNeedsAssignment
  | expectedStatement (found : Token)
  | expectedLineEnd (found : Token)
  | expectedOperand (after : Bytes)
  | expectedExpression (after : Bytes) (found : Token)
  | undefinedName (name : Bytes)
  | argumentCount (name : Bytes) (count : Nat)
  | expectedCallEnd (name : Bytes) (found : Token)
  | noCallAddress
  | needsVariable (found : Token)
  | loadSize (found : Token)
deriving DecidableEq, Repr

/-- Values whose sizes do not go together. -/
inductive SizeCause where
  | symbol (error : SymbolError)
  | frameTooLarge (name : Bytes) (size : Int)
  | condition (keyword : Bytes) (size : Int)
  | assignment (size : Int) (name : Bytes) (holds : Int)
  | assignedNothing (name : Bytes)
  | elementAssignment (size : Int) (name : Bytes) (holds : Int)
  | operandNothing (operator : Bytes)
  | comparison (left right : Int)
  | operandsDiffer (operator : Bytes) (left right : Int)
  | operandsNotByte (operator : Bytes)
  | shiftAmount (size : Int)
  | notOperand (size : Int)
  | numberRange (literal : Bytes)
  | stringLength (length : Nat)
  | notArray (name : Bytes)
  | index (size : Int)
  | calledTooEarly (name : Bytes)
  | argument (parameter function : Bytes) (expected size : Int)
  | argumentNotArray (parameter function : Bytes)
  | argumentElements (parameter function : Bytes) (expected size : Int)
  | callAddress (size : Int)
  | callRegister (size : Int)
  | storedNothing
  | memoryAddress (builtin : Bytes) (size : Int)
deriving DecidableEq, Repr

/-- The message of a grammar error. -/
def GrammarCause.message : GrammarCause → Bytes
  | .lateDefinition => "function definitions and includes must come before other statements"
  | .includeNeedsPath found => "include needs a quoted path, found " ++ found.description
  | .definitionsOnly => "included files may only contain definitions"
  | .functionName found => "invalid function name " ++ found.description
  | .functionDefined name => "function " ++ name ++ " already defined"
  | .alreadyVariable name => name ++ " is already a variable"
  | .parameterName found => "invalid parameter name " ++ found.description
  | .parameterType found => "unknown parameter type " ++ found.description
  | .duplicateParameter name => "duplicate parameter " ++ name
  | .expected what found => "expected " ++ what ++ ", found " ++ found.description
  | .expectedBlock found => "expected an indented block, found " ++ found.description
  | .endInBlock => "unexpected end of file in block"
  | .nestedDefinition => "functions cannot be defined inside blocks"
  | .unexpectedIndentation => "unexpected indentation"
  | .noCondition keyword => keyword ++ " needs a condition"
  | .returnOutside => "return outside a function"
  | .expectedReturnValue found => "expected a return value, found " ++ found.description
  | .globalOutside => "global is only allowed inside a function"
  | .globalNeedsAssignment => "global must be followed by an assignment"
  | .expectedStatement found => "expected a statement, found " ++ found.description
  | .expectedLineEnd found => "expected end of line, found " ++ found.description
  | .expectedOperand after => "expected an operand after " ++ after
  | .expectedExpression after found =>
    "expected an expression after " ++ after ++ ", found " ++ found.description
  | .undefinedName name => "undefined name " ++ name
  | .argumentCount name count => name ++ " takes " ++ Bytes.decimal count ++ " arguments"
  | .expectedCallEnd name found =>
    "expected ) after arguments to " ++ name ++ ", found " ++ found.description
  | .noCallAddress => "system call lacks an address"
  | .needsVariable found => "_addr needs a variable, found " ++ found.description
  | .loadSize found =>
    "_load needs a size from 1 to " ++ Bytes.decimalInt maxListSize ++ ", found "
      ++ found.description

/-- The message of a size error. -/
def SizeCause.message : SizeCause → Bytes
  | .symbol error => error.message
  | .frameTooLarge name size =>
    "frame of " ++ name ++ " is too large (" ++ Bytes.decimalInt size ++ " bytes)"
  | .condition keyword size =>
    keyword ++ " condition must be 1 byte, not " ++ Bytes.decimalInt size
  | .assignment size name holds =>
    "cannot assign " ++ Bytes.decimalInt size ++ " bytes to " ++ name ++ ", which holds "
      ++ Bytes.decimalInt holds
  | .assignedNothing name => "expression assigned to " ++ name ++ " has no value"
  | .elementAssignment size name holds =>
    "cannot store " ++ Bytes.decimalInt size ++ " bytes in an element of " ++ name
      ++ ", which holds " ++ Bytes.decimalInt holds
  | .operandNothing operator => "operand of " ++ operator ++ " has no value"
  | .comparison left right =>
    "cannot compare " ++ Bytes.decimalInt left ++ " bytes with " ++ Bytes.decimalInt right
      ++ " bytes"
  | .operandsDiffer operator left right =>
    "operands of " ++ operator ++ " differ in size: " ++ Bytes.decimalInt left ++ " and "
      ++ Bytes.decimalInt right ++ " bytes"
  | .operandsNotByte operator => "operands of " ++ operator ++ " must be 1 byte"
  | .shiftAmount size => "shift amount must be 1 byte, not " ++ Bytes.decimalInt size
  | .notOperand size => "operand of not must be 1 byte, not " ++ Bytes.decimalInt size
  | .numberRange literal => "number " ++ literal ++ " does not fit in 32 bits"
  | .stringLength length => "string of " ++ Bytes.decimal length ++ " bytes is too long"
  | .notArray name => name ++ " is not an array"
  | .index size => "index must be 1 or 2 bytes, not " ++ Bytes.decimalInt size
  | .calledTooEarly name => name ++ " is called before its return size is known"
  | .argument parameter function expected size =>
    "argument " ++ parameter ++ " of " ++ function ++ " must be " ++ Bytes.decimalInt expected
      ++ " bytes, not " ++ Bytes.decimalInt size
  | .argumentNotArray parameter function =>
    "argument " ++ parameter ++ " of " ++ function ++ " must be an array variable"
  | .argumentElements parameter function expected size =>
    "argument " ++ parameter ++ " of " ++ function ++ " needs " ++ Bytes.decimalInt expected
      ++ " byte elements, not " ++ Bytes.decimalInt size
  | .callAddress size => "system call address must be 2 bytes, not " ++ Bytes.decimalInt size
  | .callRegister size => "system call registers are 1 byte, not " ++ Bytes.decimalInt size
  | .storedNothing => "_store needs a value"
  | .memoryAddress builtin size =>
    builtin ++ " address must be 2 bytes, not " ++ Bytes.decimalInt size

/-- What is wrong with a program. -/
inductive ParseCause where
  | lexical (cause : LexicalCause)
  | grammar (cause : GrammarCause)
  | size (cause : SizeCause)
  | inclusion (error : IncludeError)
  /-- An include line where no files can be included. -/
  | includesUnavailable
  /-- More steps than the text has tokens, or more open files than there are names. -/
  | exhausted
deriving DecidableEq, Repr

namespace ParseCause

/-- The kind of a cause. -/
def kind : ParseCause → Bytes
  | .lexical _ => "lexical"
  | .grammar _ | .exhausted => "syntax"
  | .size _ => "type"
  | .inclusion _ | .includesUnavailable => "include"

/-- The message of a cause. -/
def message : ParseCause → Bytes
  | .lexical cause => cause.message
  | .grammar cause => cause.message
  | .size cause => cause.message
  | .inclusion error => error.message
  | .includesUnavailable => "includes are not available"
  | .exhausted => "program is too long"

end ParseCause

/-- A cause with the file, line and column where it was found. -/
structure ParseError where
  cause : ParseCause
  file : Bytes
  line : Nat
  column : Nat
deriving DecidableEq, Repr

/-- The full text of an error. -/
def ParseError.text (e : ParseError) : Bytes :=
  let place : Bytes :=
    if e.file.isEmpty then "line " ++ Bytes.decimal e.line
    else e.file ++ ":" ++ Bytes.decimal e.line
  place ++ ": " ++ e.cause.kind ++ " error: " ++ e.cause.message

end Terrace
