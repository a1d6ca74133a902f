/-
# Flags

The flags of the command line and where they stand. Flags may be mixed with the
other arguments: they are moved to the front, each with its value.

Key definitions: `Flag`, `Flag.isSwitch`, `isFlagArgument`, `takesNext`, `arrange`.
-/
import Terrace.Text.Bytes

namespace Terrace

/-- The flags of the command line. -/
inductive Flag where
  | target
  | output
  | debug
  | color
  | run
  | interactive
  | includeDir
  | base
  | routines
  | check
  | timeout
  | steps
  | logLevel
  | help
deriving DecidableEq, Repr

namespace Flag

/-- The names of the flags; some have a short one too. -/
def names : List (Bytes × Flag) := [
  ("target", .target), ("t", .target), ("output", .output), ("o", .output),
  ("debug", .debug), ("d", .debug), ("color", .color), ("run", .run), ("r", .run),
  ("interactive", .interactive), ("i", .interactive), ("I", .includeDir), ("base", .base),
  ("routines", .routines), ("check", .check), ("timeout", .timeout), ("steps", .steps),
  ("log-level", .logLevel), ("l", .logLevel), ("help", .help), ("h", .help)]

/-- The flag with a name. -/
def ofName? (name : Bytes) : Option Flag := names.lookup name

/-- Whether a flag is a switch, which needs no value. -/
def isSwitch : Flag → Bool
  | .debug | .color | .run | .interactive | .help => true
  | .target | .output | .includeDir | .base | .routines | .check | .timeout | .steps
  | .logLevel => false

end Flag

/-- The dash in front of a flag. -/
def dash : UInt8 := '-'.toUInt8

/-- Whether an argument looks like a flag: a dash and something behind it. -/
def isFlagArgument (argument : Bytes) : Bool :=
  2 ≤ argument.length && argument.head? == some dash

/-- Whether a flag stands without its value, so that the next argument is taken for it. -/
def takesNext (argument : Bytes) : Bool :=
  let name := argument.dropWhile (· == dash)
  !name.contains '='.toUInt8 && !((Flag.ofName? name).any Flag.isSwitch)

/-- The flags with their values, and the other arguments. -/
def arrange : List Bytes → List Bytes × List Bytes
  | [] => ([], [])
  | argument :: rest =>
    if !isFlagArgument argument then
      let (flags, others) := arrange rest
      (flags, argument :: others)
    else if !takesNext argument then
      let (flags, others) := arrange rest
      (argument :: flags, others)
    else match rest with
      | [] => ([argument], [])
      | value :: rest =>
        let (flags, others) := arrange rest
        (argument :: value :: flags, others)

end Terrace
