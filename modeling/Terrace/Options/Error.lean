/-
# Refused command lines

Key definitions: `OptionError`, `OptionError.message`.
-/
import Terrace.Text.Log
import Terrace.Text.Numeral

namespace Terrace

/-- Why a command line is refused. -/
inductive OptionError where
  | badFlag (argument : Bytes)
  | unknownFlag (name : Bytes)
  | noValue (name : Bytes)
  | badSwitch (value name : Bytes)
  | badNumber (value name : Bytes) (fault : Text.Numeral.Fault)
  | unknownLevel (name : Bytes)
  | negativeTimeout (seconds : Int)
  | negativeSteps (steps : Int)
  | unknownTarget (name : Bytes)
  | badBase (text : Bytes)
  | sourceInCheck
  | noSource
  | tooMany (extra : List Bytes)
  | noRoutines
  | runElsewhere
  | manifestElsewhere
deriving DecidableEq, Repr

/-- The message of a refused command line. -/
def OptionError.message : OptionError → Bytes
  | .badFlag argument => "bad flag syntax: " ++ argument
  | .unknownFlag name => "flag provided but not defined: -" ++ name
  | .noValue name => "flag needs an argument: -" ++ name
  | .badSwitch value name =>
    "invalid boolean value " ++ Text.quote value ++ " for -" ++ name ++ ": parse error"
  | .badNumber value name fault =>
    let reason : Bytes := match fault with
      | .malformed => "parse error"
      | .outOfRange => "value out of range"
    "invalid value " ++ Text.quote value ++ " for flag -" ++ name ++ ": " ++ reason
  | .unknownLevel name =>
    Level.unknownMessage name ++ " (must be debug, info, warn, or error)"
  | .negativeTimeout seconds =>
    "timeout must be non-negative, got " ++ Bytes.decimalInt seconds
  | .negativeSteps steps => "steps must be non-negative, got " ++ Bytes.decimalInt steps
  | .unknownTarget name => "unknown target architecture: " ++ name ++ " (must be vm or 6502)"
  | .badBase text => "invalid base address " ++ Text.quote text ++ ": must be a 16-bit number"
  | .sourceInCheck => "--check does not take a source file"
  | .noSource => "no source file given"
  | .tooMany extra => "too many arguments: " ++ List.intercalate " " extra
  | .noRoutines => "the 6502 target needs a routine library (-routines)"
  | .runElsewhere => "-r runs the vm target only"
  | .manifestElsewhere => "a manifest is only used by the 6502 target"

end Terrace
