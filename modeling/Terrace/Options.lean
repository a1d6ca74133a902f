/-
# Options

What the command line asks the program to do: the settings are checked in a fixed
order, and the first that does not fit is reported.

Key definitions: `Target`, `Job`, `Options`, `Settings.validate`, `Invocation`,
`Invocation.ofArguments`.
-/
import Terrace.Options.Settings

namespace Terrace

/-- What code is made for. -/
inductive Target where
  | vm
  | mos6502
deriving DecidableEq, Repr

namespace Target

/-- The name of a target. -/
def name : Target → Bytes
  | .vm => "vm"
  | .mos6502 => "6502"

/-- The target with a name. -/
def ofName? (name : Bytes) : Option Target := [Target.vm, .mos6502].find? (·.name == name)

end Target

/-- What the program is to do. -/
inductive Job where
  /-- Compile every program of a directory. -/
  | check (dir : Bytes)
  /-- Compile a program; the manifest is empty if there is none. -/
  | build (source manifest : Bytes)
deriving DecidableEq, Repr

/-- Checked options; a path is empty if it is not given. -/
structure Options where
  job : Job
  target : Target
  output : Bytes
  debug : Bool
  color : Bool
  run : Bool
  interactive : Bool
  includeDir : Bytes
  base : Option UInt16
  routines : Bytes
  /-- In nanoseconds; none if it is not positive. -/
  timeout : Int
  /-- The most instructions of a run; zero for any number. -/
  steps : Int
  level : Level
deriving DecidableEq, Repr

/-- Seconds in nanoseconds, in the 64 bits of a duration. -/
def nanoseconds (seconds : Int) : Int := (seconds * 1000000000).bmod (Nat.pow 2 64)

/-- The file a linked program is written to if none is given. -/
def defaultOutput : Bytes := "program.oph"

/-- The base address in the settings, if there is one. -/
def Settings.baseAddress (s : Settings) : Except OptionError (Option UInt16) :=
  if s.base.isEmpty then .ok none
  else match Text.Numeral.readFree 0xffff s.base with
    | .ok address => .ok (some address.toUInt16)
    | .error _ => .error (.badBase s.base)

/-- What is to be done with the arguments that are no flags. -/
def Settings.job (s : Settings) (arguments : List Bytes) : Except OptionError Job :=
  if !s.check.isEmpty then
    if arguments.isEmpty then .ok (.check s.check) else .error .sourceInCheck
  else match arguments with
    | [] => .error .noSource
    | [source] => .ok (.build source [])
    | [source, manifest] => .ok (.build source manifest)
    | _ :: _ :: extra => .error (.tooMany extra)

/-- Checks that the other options suit the target and the job, and fills in the output. -/
def Options.settle (o : Options) : Except OptionError Options :=
  match o.job, o.target with
  | .check _, _ => .ok o
  | .build _ manifest, .vm => if manifest.isEmpty then .ok o else .error .manifestElsewhere
  | .build _ _, .mos6502 =>
    if o.routines.isEmpty then .error .noRoutines
    else if o.run then .error .runElsewhere
    else .ok (if o.output.isEmpty then { o with output := defaultOutput } else o)

/-- Checks settings together with the arguments that are no flags. -/
def Settings.validate (s : Settings) (arguments : List Bytes) : Except OptionError Options := do
  match Level.ofName? s.logLevel with
  | none => throw (.unknownLevel s.logLevel)
  | some level =>
    if s.timeout < 0 then throw (.negativeTimeout s.timeout)
    if s.steps < 0 then throw (.negativeSteps s.steps)
    match Target.ofName? s.target with
    | none => throw (.unknownTarget s.target)
    | some target =>
      let base ← s.baseAddress
      let job ← s.job arguments
      Options.settle {
        job, target, output := s.output, debug := s.debug, color := s.color, run := s.run
        interactive := s.interactive, includeDir := s.includeDir, base, routines := s.routines
        timeout := nanoseconds s.timeout, steps := s.steps, level }

/-- What a command line asks for. -/
inductive Invocation where
  | help (settings : Settings)
  | work (options : Options)
deriving DecidableEq, Repr

/-- Reads a command line. -/
def Invocation.ofArguments (arguments : List Bytes) (env : Environment) :
    Except OptionError Invocation := do
  let (flags, others) := arrange arguments
  let (settings, positional) ← readFlags {} (flags ++ others)
  let settings := settings.fill env
  if settings.help then return .help settings
  return .work (← settings.validate positional)

end Terrace
