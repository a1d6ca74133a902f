/-
# Variables and functions

What a program declares. Variables stand in lists one after the other, so the
offset of a variable is the sum of the sizes before it; a list takes at most 255
bytes. A function has its parameters, its locals and, once known, the size of its
result.

Key definitions: `Variable`, `VariableList`, `VariableList.add`, `Function`,
`Function.setReturn`, `FunctionTable`, `ParameterType`.
-/
import Terrace.Count
import Terrace.Source.Storage
import Terrace.Text.Bytes

namespace Terrace

/-- The most bytes a list of variables may take: offsets and sizes are single bytes. -/
def maxListSize : Int := 255

/-- A named place for a value. -/
structure Variable where
  name : Bytes := []
  /-- The bytes it takes in its list. -/
  size : Int := 0
  /-- The size of one element; the whole size unless it is an array. -/
  elementSize : Int := 0
  isArray : Bool := false
  /-- An array parameter, which holds an address. -/
  isReference : Bool := false
deriving DecidableEq, Repr

/-- Why a symbol cannot be declared or used in this way. -/
inductive SymbolError where
  | alreadyDeclared (name : Bytes)
  | noRoom (name : Bytes) (inUse needed : Int)
  | returnMismatch (name : Bytes) (here elsewhere : Int)
  | functionDefined (name : Bytes)
deriving DecidableEq, Repr

/-- The message of a symbol error. -/
def SymbolError.message : SymbolError → Bytes
  | .alreadyDeclared name => "variable " ++ name ++ " already declared"
  | .noRoom name inUse needed =>
    "no room for " ++ name ++ ": " ++ Bytes.decimalInt inUse ++ " bytes in use, "
      ++ Bytes.decimalInt needed ++ " more needed"
  | .returnMismatch name here elsewhere =>
    "function " ++ name ++ " returns " ++ Bytes.decimalInt here ++ " bytes here but "
      ++ Bytes.decimalInt elsewhere ++ " bytes elsewhere"
  | .functionDefined name => "function " ++ name ++ " already defined"

/-- Variables in the order of their declaration. -/
structure VariableList where
  slots : List Variable := []
deriving DecidableEq, Repr

namespace VariableList

/-- The place of a name. -/
def index? (l : VariableList) (name : Bytes) : Option Nat :=
  l.slots.findIdx? (·.name == name)

/-- The bytes the first `i` variables take, counted like every size in 64 bits. -/
def offset (l : VariableList) (i : Nat) : Int :=
  wrap ((l.slots.take i).foldr (fun v size => v.size + size) 0)

/-- The bytes all variables take. -/
def totalSize (l : VariableList) : Int := l.offset l.slots.length

/-- A variable with its offset. -/
def lookup? (l : VariableList) (name : Bytes) : Option (Variable × Int) := do
  let i ← l.index? name
  return (← l.slots[i]?, l.offset i)

/-- Declares a variable and tells its offset. -/
def add (l : VariableList) (v : Variable) : Except SymbolError (Int × VariableList) :=
  if (l.index? v.name).isSome then .error (.alreadyDeclared v.name)
  else if maxListSize < wrap (l.totalSize + v.size) then
    .error (.noRoom v.name l.totalSize v.size)
  else .ok (l.totalSize, ⟨l.slots ++ [v]⟩)

/-- The places a list has made room for. -/
def capacity (l : VariableList) : Nat := Storage.room l.slots.length

/-- The offset of any place the list has room for; places not yet taken add nothing. -/
def offset? (l : VariableList) (i : Int) : Option Int :=
  if i < 0 || (l.capacity : Int) < i then none else some (l.offset i.toNat)

/-- The variable at a place. -/
def at? (l : VariableList) (i : Int) : Option Variable :=
  if i < 0 then none else l.slots[i.toNat]?

end VariableList

/-- A function. -/
structure Function where
  name : Bytes
  parameters : VariableList := {}
  locals : VariableList := {}
  /-- The place of its first item in the emitted code. -/
  entry : Int := 0
  /-- Its address once assembled. -/
  address : UInt16 := 0
  returnSize : Int := 0
  returnArray : Bool := false
  returnKnown : Bool := false
deriving DecidableEq, Repr

namespace Function

/-- The bytes of arguments a caller pushes. -/
def parameterSize (f : Function) : Int := f.parameters.totalSize

/-- Records the result of a return statement, or compares it with that of an earlier one. -/
def setReturn (f : Function) (size : Int) (array : Bool) : Except SymbolError Function :=
  if !f.returnKnown then
    .ok { f with returnSize := size, returnArray := array, returnKnown := true }
  else if f.returnSize = size && f.returnArray = array then .ok f
  else .error (.returnMismatch f.name size f.returnSize)

end Function

/-- Functions in the order of their definition. -/
abbrev FunctionTable := List Function

namespace FunctionTable

/-- The function with a name. -/
def lookup? (table : FunctionTable) (name : Bytes) : Option Function :=
  table.find? (·.name == name)

/-- Defines a function. -/
def add (table : FunctionTable) (f : Function) : Except SymbolError FunctionTable :=
  if (table.lookup? f.name).isSome then .error (.functionDefined f.name)
  else .ok (table ++ [f])

end FunctionTable

/-- What a parameter of a type takes. -/
structure ParameterType where
  size : Int
  elementSize : Int
  isArray : Bool
deriving DecidableEq, Repr

/-- The types of parameters. -/
def parameterTypes : List (Bytes × ParameterType) := [
  ("byte", ⟨1, 1, false⟩),
  ("int8", ⟨1, 1, false⟩),
  ("int16", ⟨2, 2, false⟩),
  ("int32", ⟨4, 4, false⟩),
  ("int8_array", ⟨2, 1, true⟩),
  ("int16_array", ⟨2, 2, true⟩),
  ("int32_array", ⟨2, 4, true⟩),
  ("string", ⟨2, 1, true⟩)]

/-- The type with a name. -/
def ParameterType.ofName? (name : Bytes) : Option ParameterType := parameterTypes.lookup name

end Terrace
