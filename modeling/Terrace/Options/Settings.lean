/-
# Settings

What the flags of a command line say, before it is checked. A flag that is not given
can be set by the environment.

Key definitions: `Settings`, `Settings.set`, `flagParts`, `readFlags`, `Environment`,
`Settings.fill`.
-/
import Terrace.Options.Error
import Terrace.Options.Flag
import Terrace.Text.LetterCase

namespace Terrace

/-- What the flags say, before it is checked. -/
structure Settings where
  target : Bytes := "vm"
  output : Bytes := []
  debug : Bool := false
  color : Bool := false
  run : Bool := false
  interactive : Bool := false
  includeDir : Bytes := []
  base : Bytes := []
  routines : Bytes := []
  check : Bytes := []
  /-- In seconds. -/
  timeout : Int := 0
  steps : Int := 0
  logLevel : Bytes := "info"
  help : Bool := false
deriving DecidableEq, Repr

/-- The value of a switch. -/
def switchValue? (text : Bytes) : Option Bool :=
  let yes : List Bytes := ["1", "t", "T", "TRUE", "true", "True"]
  let no : List Bytes := ["0", "f", "F", "FALSE", "false", "False"]
  if yes.contains text then some true else if no.contains text then some false else none

/-- A number of a flag, in any base it names. -/
def flagNumber (name value : Bytes) : Except OptionError Int :=
  (Text.Numeral.readSigned 64 Text.Numeral.readFree value).mapError (.badNumber value name ·)

/-- A switch of a flag. -/
def flagSwitch (name value : Bytes) : Except OptionError Bool :=
  match switchValue? value with
  | some on => .ok on
  | none => .error (.badSwitch value name)

/-- Sets a flag, given by a name, to a value. -/
def Settings.set (s : Settings) (flag : Flag) (name value : Bytes) :
    Except OptionError Settings := do
  match flag with
  | .target => return { s with target := value }
  | .output => return { s with output := value }
  | .debug => return { s with debug := ← flagSwitch name value }
  | .color => return { s with color := ← flagSwitch name value }
  | .run => return { s with run := ← flagSwitch name value }
  | .interactive => return { s with interactive := ← flagSwitch name value }
  | .includeDir => return { s with includeDir := value }
  | .base => return { s with base := value }
  | .routines => return { s with routines := value }
  | .check => return { s with check := value }
  | .timeout => return { s with timeout := ← flagNumber name value }
  | .steps => return { s with steps := ← flagNumber name value }
  | .logLevel => return { s with logLevel := value }
  | .help => return { s with help := ← flagSwitch name value }

/-- The name in a flag argument, and the value behind an equals sign. -/
def flagParts (argument : Bytes) : Except OptionError (Bytes × Option Bytes) :=
  let text := if argument.startsWith "--" then argument.drop 2 else argument.drop 1
  match text.head? with
  | none => .error (.badFlag argument)
  | some first =>
    if first = dash || first = '='.toUInt8 then .error (.badFlag argument)
    else match Bytes.splitAtFirst (· == '='.toUInt8) text with
      | (name, []) => .ok (name, none)
      | (name, _ :: value) => .ok (name, some value)

/-- Reads flags from the front of the arguments, up to the first that is none or to a
double dash, and gives the arguments after them. -/
@[simp] def readFlags (s : Settings) : List Bytes → Except OptionError (Settings × List Bytes)
  | [] => .ok (s, [])
  | argument :: rest =>
    if !isFlagArgument argument then .ok (s, argument :: rest)
    else if argument == "--" then .ok (s, rest)
    else match flagParts argument with
      | .error e => .error e
      | .ok (name, value) =>
        match Flag.ofName? name with
        | none => .error (.unknownFlag name)
        | some flag =>
          if flag.isSwitch then do
            readFlags (← s.set flag name (value.getD "true")) rest
          else match value, rest with
            | some value, rest => do readFlags (← s.set flag name value) rest
            | none, value :: rest => do readFlags (← s.set flag name value) rest
            | none, [] => .error (.noValue name)

/-- The variables of the environment that matter; empty if they are not set. -/
structure Environment where
  logLevel : Bytes := []
  includeDir : Bytes := []
  timeout : Bytes := []
deriving DecidableEq, Repr

/-- The timeout an environment asks for; zero unless it is a positive number. -/
def Environment.seconds (env : Environment) : Int :=
  match Text.Numeral.readDecimal 64 env.timeout with
  | .ok seconds => max seconds 0
  | .error _ => 0

/-- Fills settings that have their default value from the environment. -/
def Settings.fill (s : Settings) (env : Environment) : Settings := { s with
  logLevel :=
    if s.logLevel == "info" && !env.logLevel.isEmpty then Text.toLower env.logLevel
    else s.logLevel
  includeDir := if s.includeDir.isEmpty then env.includeDir else s.includeDir
  timeout := if s.timeout = 0 then env.seconds else s.timeout }

end Terrace
