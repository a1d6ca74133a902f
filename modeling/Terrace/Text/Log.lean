/-
# Log records

What the library reports about its work: a level, a message and named values.
A record is shown plainly, or in the line format of a log file, where a value
that could be misread is quoted.

Key definitions: `Level`, `Level.parse`, `Record`, `Record.plain`, `Record.line`.
-/
import Terrace.Text.Blank
import Terrace.Text.LetterCase
import Terrace.Text.Quoted

namespace Terrace

/-- How important a record is. -/
inductive Level where
  | debug
  | info
  | warn
  | error
deriving DecidableEq, Repr

namespace Level

/-- The rank of a level; a log shows the records of its own rank and above. -/
def rank : Level → Int
  | .debug => -4
  | .info => 0
  | .warn => 4
  | .error => 8

/-- The name of a level on the command line. -/
def name : Level → Bytes
  | .debug => "debug"
  | .info => "info"
  | .warn => "warn"
  | .error => "error"

/-- The name of a level in a log file. -/
def tag : Level → Bytes
  | .debug => "DEBUG"
  | .info => "INFO"
  | .warn => "WARN"
  | .error => "ERROR"

/-- The level with exactly this name. -/
def ofName? (name : Bytes) : Option Level :=
  [Level.debug, .info, .warn, .error].find? (·.name == name)

/-- The level with this name in any letter case. -/
def parse (name : Bytes) : Option Level := ofName? (Text.toLower name)

/-- The message for a name that is no level. -/
def unknownMessage (name : Bytes) : Bytes := "invalid log level: " ++ name

end Level

/-- A report with named values. -/
structure Record where
  level : Level
  message : Bytes
  attributes : List (Bytes × Bytes)
deriving DecidableEq, Repr

namespace Record

/-- The record's message and its values as they are. -/
def plain (record : Record) : Bytes :=
  record.message ++ record.attributes.flatMap fun (key, value) =>
    ' '.toUInt8 :: (key ++ '='.toUInt8 :: value)

/-- Whether a code point makes a value need quotes: controls, the space, the equals
sign and the double quote among the ASCII ones, and the others that are blank or
not printable. -/
def needsQuotes (code : Nat) : Bool :=
  if code < 0x80 then code ≤ 0x20 || code == '"'.toNat || code == '='.toNat
  else code == 0xfffd || Text.isBlank code || !Text.isPrintable code

/-- A value in a log file. -/
def shown (value : Bytes) : Bytes :=
  if value.isEmpty || (Text.Utf8.units value).any (fun unit => needsQuotes unit.code) then
    Text.quote value
  else value

/-- A record as a line of a log file. -/
def line (record : Record) : Bytes :=
  "level=" ++ record.level.tag ++ " msg=" ++ shown record.message
    ++ record.attributes.flatMap (fun (key, value) =>
      ' '.toUInt8 :: (shown key ++ '='.toUInt8 :: shown value))
    ++ "\n"

end Record

end Terrace
