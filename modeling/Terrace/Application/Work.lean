/-
# The work of the application

The pieces the application is made of: compiling a program, showing it, running it,
writing it out, and compiling every program of a directory. They work on a world of
a disk, a terminal and a log, and stop at the first failure; what was shown, logged
and written until then stays.

Key definitions: `World`, `RunContext`, `Work`, `Work.compile`, `Work.showProgram`,
`Work.runProgram`, `Work.writeProgram`, `Work.build`, `Work.checkScripts`.
-/
import Terrace.Application.Failure
import Terrace.Options
import Terrace.Source.Dump

namespace Terrace

/-- What the application works on. -/
structure World where
  disk : Disk := {}
  terminal : Terminal := {}
  /-- The records that were important enough to keep, oldest first. -/
  log : List Record := []
  /-- Whether the work was called off before it began. -/
  cancelled : Bool := false

/-- What the world shows on its terminal. -/
def World.shown (w : World) : Bytes := w.terminal.device.written

/-- The text of the log. -/
def World.logText (w : World) : Bytes := w.log.flatMap Record.line

/-- What a run is told from outside: whether it was called off before it began, and how many
nanoseconds it may take if its time is limited. The clock itself is no part of the world. -/
structure RunContext where
  cancelled : Bool
  deadline : Option Int
deriving DecidableEq, Repr

/-- A piece of work; a failure leaves the world as it is at that moment. -/
abbrev Work := EStateM Failure World

namespace Work

/-- Shows text on the terminal. -/
def print (text : Bytes) : Work Unit :=
  modify fun w =>
    let device := (w.terminal.device.write text).getD w.terminal.device
    { w with terminal := { w.terminal with device } }

/-- Shows lines on the terminal. -/
def printLines (lines : List Bytes) : Work Unit := print (lines.flatMap (· ++ "\n"))

section
variable (o : Options)

/-- Keeps the records that are important enough. -/
def keep (records : List Record) : Work Unit :=
  modify fun w => { w with
    log := w.log ++ records.filter fun record => o.level.rank ≤ record.level.rank }

/-- Reports progress. -/
def inform (message : Bytes) (attributes : List (Bytes × Bytes)) : Work Unit :=
  keep o [{ level := .info, message, attributes }]

/-- Fails if there is an error. -/
def orFail {ε α : Type} (failure : ε → Failure) : Except ε α → Work α
  | .ok a => pure a
  | .error e => throw (failure e)

/-- The options of a compilation. -/
def compileOptions (base : UInt16) : Work CompileOptions := do
  let disk := (← get).disk
  return {
    base
    library := if o.includeDir.isEmpty then none else some (.directory disk o.includeDir) }

/-- Compiles the program at a path. -/
def compile (source : Bytes) (base : UInt16) : Work Compiled := do
  inform o "Compiling" [
    ("file", source), ("target", o.target.name), ("base", Bytes.address base.toNat)]
  let (result, records) := compileFile (← get).disk source (← compileOptions o base)
  keep o records
  let compiled ← orFail .compile result
  inform o "Compiled successfully" [
    ("bytes", Bytes.decimal compiled.image.code.length),
    ("functions", Bytes.decimal compiled.functions.length),
    ("globals", Bytes.decimal compiled.globals.slots.length)]
  return compiled

/-- Reads the routine library. -/
def loadRoutines : Work RoutineLibrary := do
  match (← get).disk.readFile o.routines with
  | .error error =>
    -- A directory can be opened, but not read.
    if error.problem = .isDirectory then throw (.unreadableRoutines error.message)
    else throw (.noRoutines error)
  | .ok text =>
    match RoutineLibrary.parse text with
    | none => throw (.unreadableRoutines Text.tooLongMessage)
    | some library =>
      keep o [{
        level := .debug
        message := "Routine library loaded"
        attributes := [
          ("file", o.routines), ("routines", Bytes.decimal library.routines.length)] }]
      return library

/-- The lines that tell how often each opcode is used, the rarest first. -/
def usageLines (usage : List (Opcode × Nat)) : List Bytes :=
  (usage.mergeSort fun a b => a.2 ≤ b.2).map fun (op, count) =>
    "  " ++ Bytes.padRight 34 op.name ++ " " ++ Bytes.decimal count

/-- Shows the symbols, the code and the use of opcodes. -/
def showProgram (compiled : Compiled) : Work Unit := do
  printLines ("Functions:" :: dumpFunctions compiled.functions)
  printLines ("Globals:" :: dumpVariables compiled.globals.slots)
  printLines ["Code:"]
  let (lines, fault) := disassemble compiled.image.code compiled.image.base
  match fault with
  | some error => throw (.listing error.message)
  | none => print (listing lines compiled.labels o.color).flatten
  let usage ← orFail (fun error => .listing error.message) compiled.image.usage
  printLines ("Opcode usage:" :: usageLines usage)

/-- Shows the globals after a run. -/
def showGlobals (source : Bytes) (m : Machine) : Int → List Variable → Work Unit
  | _, [] => pure ()
  | address, v :: rest => do
    let value ← orFail (fun stop => .run source (.globals stop)) (m.peek address v.size)
    printLines ["  " ++ Bytes.padRight 16 v.name ++ " $" ++ Bytes.hexPadded 4 address.toNat
      ++ " [" ++ Bytes.hexDump value ++ "]"]
    showGlobals source m (address + v.size) rest

/-- The context of a run; there is a deadline if the timeout is positive. -/
def runContext (w : World) : RunContext where
  cancelled := w.cancelled
  deadline := if 0 < o.timeout then some o.timeout else none

/-- The host that serves the system calls of a run. -/
def host (context : RunContext) : Host Terminal :=
  { (if o.interactive then Host.prompt else Host.console) with
    cancelled := fun _ => context.cancelled }

/-- Runs a program and shows its final stack. -/
def runProgram (source : Bytes) (compiled : Compiled) : Work Unit := do
  let w ← get
  let config : Config := { maxSteps := o.steps, trace := o.level == .debug }
  let machine : Machine := { config }
  let image := compiled.image
  let loaded ← orFail (fun fault => .run source (.load fault)) (machine.load image)
  keep o [loaded.loadedRecord image]
  inform o "Running" [("start", Bytes.address image.start.toNat)]
  let (session, finish) :=
    Machine.run (host o (runContext o w)) image.start { machine := loaded, host := w.terminal }
  modify fun w => { w with terminal := session.host }
  keep o session.records.toList
  let m := session.machine
  match finish with
  | .finished stack =>
    inform o "Program finished" [
      ("steps", Bytes.decimal m.steps), ("pc", Bytes.address m.pc), ("sp", Bytes.address m.sp),
      ("fp", Bytes.address m.fp)]
    printLines ["Stack: [" ++ Bytes.hexDump stack ++ "]"]
    if o.debug then
      printLines ["Global values:"]
      showGlobals source m m.stackBase compiled.globals.slots
  | finish => throw (.run source (.stopped finish ((finish.message m).getD [])))

/-- Fails because the output cannot be written. -/
def writeFail {ε α : Type} (failure : ε → WriteFailure) : Except ε α → Work α :=
  orFail fun e => .write o.output (failure e)

/-- Writes a file of the disk. -/
def writeFile (path contents : Bytes) : Work Unit := do
  let disk ← writeFail o .file ((← get).disk.writeFile path contents)
  modify fun w => { w with disk }

/-- Checks that a file of a manifest is there, unless it is yet to be built. -/
def checkEntry (dir : Bytes) (entry : ManifestEntry) : Work Unit := do
  if entry.source.isEmpty then
    let _ ← writeFail o .noFile ((← get).disk.stat (Path.join dir entry.object))

/-- Reads a manifest and checks the files in it. -/
def loadManifest (path : Bytes) : Work (List ManifestEntry) := do
  match (← get).disk.readFile path with
  | .error error =>
    if error.problem = .isDirectory then
      throw (.write o.output (.unreadableManifest path error))
    else throw (.write o.output (.noManifest error))
  | .ok text =>
    let entries ← writeFail o (.manifest path) (Manifest.parse text)
    entries.forM (checkEntry o (Path.dir path))
    return entries

/-- Writes the byte code, or the assembler source if there is a routine library. -/
def writeProgram (library : Option RoutineLibrary) (manifest : Bytes) (compiled : Compiled) :
    Work Unit := do
  let image := compiled.image
  match library with
  | none =>
    inform o "Writing byte code" [
      ("file", o.output), ("bytes", Bytes.decimal image.code.length)]
    writeFile o o.output image.code
  | some library =>
    let files ← if manifest.isEmpty then pure [] else loadManifest o manifest
    let text ← writeFail o .link (link library image files)
    inform o "Writing linked program" [
      ("file", o.output), ("files", Bytes.decimal files.length)]
    writeFile o o.output text

/-- The routine library and the load address of a target. -/
def prepare : Work (Option RoutineLibrary × UInt16) := do
  match o.target with
  | .vm => return (none, o.base.getD 0)
  | .mos6502 =>
    let library ← loadRoutines o
    match o.base <|> library.origin? with
    | some base => return (some library, base)
    | none => throw (.noOrigin o.routines)

/-- Compiles a program and does with it what the options ask for. -/
def build (source manifest : Bytes) : Work Unit := do
  let (library, base) ← prepare o
  let compiled ← compile o source base
  if o.debug then showProgram o compiled
  if o.run then runProgram o source compiled
  if !o.output.isEmpty then writeProgram o library manifest compiled

/-- The line that tells the outcome of one program of a collection. -/
def outcomeLine (r : ScriptResult) : Bytes :=
  match r.result, r.script.expectFail with
  | .ok _, false => r.script.name ++ " passed"
  | .ok _, true => r.script.name ++ " passed but was expected to fail"
  | .error _, true => r.script.name ++ " failed as expected"
  | .error e, false => r.script.name ++ " failed " ++ e.text

/-- Compiles every program of a directory and shows the outcomes. -/
def checkScripts (dir : Bytes) : Work Unit := do
  let tree := FileTree.directory (← get).disk dir
  let scripts ← orFail .scripts (loadScripts tree dir)
  inform o "Scripts loaded" [("count", Bytes.decimal scripts.length)]
  if (← get).cancelled then throw .cancelled
  let options ← compileOptions o (o.base.getD 0)
  let results := compileScripts scripts { options with source := some tree }
  keep o (results.flatMap (·.records))
  printLines (results.map outcomeLine)
  let failed := results.countP (·.failed)
  if 0 < failed then throw (.unexpected failed results.length)

end

end Work

end Terrace
