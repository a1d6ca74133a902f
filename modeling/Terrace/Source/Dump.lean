/-
# Symbol dumps

Functions and variables written out field by field, for the debug output. A nested
value is indented by two blanks, and the fields of a value and the items of a list
are separated by commas.

Key definitions: `dumpBlock`, `Variable.dump`, `Function.dump`, `dumpFunctions`,
`dumpVariables`.
-/
import Terrace.Source.Symbol
import Terrace.Text.Quoted

namespace Terrace

/-- Lines indented by one level. -/
def indented (lines : List Bytes) : List Bytes := lines.map fun line => "  " ++ line

/-- Items one after the other, each but the last with a comma behind it. -/
def separated : List (List Bytes) → List Bytes
  | [] => []
  | [item] => item
  | item :: rest =>
    item.dropLast ++ [item.getLast?.getD [] ++ ","] ++ separated rest

/-- Items between an opening and a closing line. -/
def dumpBlock (first : Bytes) (items : List (List Bytes)) (last : Bytes) : List Bytes :=
  first :: indented (separated items) ++ [last]

/-- A value with the name of its field in front. -/
def dumpField (name : Bytes) (value : List Bytes) : List Bytes :=
  match value with
  | [] => []
  | first :: rest => (name ++ ": " ++ first) :: rest

/-- A list of values of a type; an empty one has no items to show. -/
def dumpList (type : Bytes) (items : List (List Bytes)) : List Bytes :=
  let head : Bytes := "([]" ++ type ++ ") "
  if items.isEmpty then [head ++ "<nil>"]
  else dumpBlock (head ++ "(len=" ++ Bytes.decimal items.length ++ ") \x7b") items "\x7d"

/-- A text field. -/
def dumpText (name text : Bytes) : List Bytes :=
  [name ++ ": (string) (len=" ++ Bytes.decimal text.length ++ ") " ++ Text.quote text]

/-- A number field. -/
def dumpNumber (name type : Bytes) (n : Int) : List Bytes :=
  [name ++ ": (" ++ type ++ ") " ++ Bytes.decimalInt n]

/-- A field that is true or false. -/
def dumpFlag (name : Bytes) (b : Bool) : List Bytes :=
  let word : Bytes := if b then "true" else "false"
  [name ++ ": (bool) " ++ word]

/-- A variable. -/
def Variable.dump (v : Variable) : List Bytes :=
  dumpBlock "(symbol.Variable) \x7b" [
    dumpText "Name" v.name, dumpNumber "Size" "int" v.size,
    dumpNumber "ElementSize" "int" v.elementSize, dumpFlag "IsArray" v.isArray,
    dumpFlag "IsReference" v.isReference] "\x7d"

/-- A list of variables. -/
def dumpVariables (slots : List Variable) : List Bytes :=
  dumpList "symbol.Variable" (slots.map Variable.dump)

/-- A list of variables as a field of a function. -/
def dumpVariableList (name : Bytes) (l : VariableList) : List Bytes :=
  dumpField name (dumpBlock "(*symbol.List)(\x7b" [
    dumpField "vars" (dumpVariables l.slots)] "\x7d)")

/-- A function. -/
def Function.dump (f : Function) : List Bytes :=
  dumpBlock "(*symbol.Function)(\x7b" [
    dumpText "Name" f.name, dumpVariableList "Params" f.parameters,
    dumpVariableList "Locals" f.locals, dumpNumber "Entry" "int" f.entry,
    dumpNumber "Addr" "uint16" f.address.toNat, dumpNumber "ReturnSize" "int" f.returnSize,
    dumpFlag "ReturnArray" f.returnArray, dumpFlag "ReturnKnown" f.returnKnown] "\x7d)"

/-- A list of functions. -/
def dumpFunctions (functions : List Function) : List Bytes :=
  dumpList "*symbol.Function" (functions.map Function.dump)

end Terrace
