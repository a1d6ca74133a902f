/-
# Compilation

From a source text to an image: the text is parsed, its code generated and
assembled at a base address, and the addresses of its functions filled in. The first
error ends the compilation; one in the text itself shows the lines around it.

Key definitions: `CompileError`, `CompileError.text`, `Compiled`, `Compiled.labels`,
`compile`, `compileFile`, `compileScripts`.
-/
import Terrace.Code.Assembly
import Terrace.Code.Listing
import Terrace.Source.Excerpt
import Terrace.Source.Generation
import Terrace.Source.Parse.Program

namespace Terrace

/-- Why a program does not compile. -/
inductive CompileCause where
  | parsing (cause : ParseCause)
  | generation (misuse : Misuse)
  | assembly (error : AssemblyError)
  /-- The file with the program cannot be read. -/
  | unreadable (path : Bytes) (error : FileError)
deriving DecidableEq, Repr

namespace CompileCause

/-- The phase of the compilation that failed. -/
def phase : CompileCause → Bytes
  | .parsing cause => cause.kind
  | .generation _ | .assembly _ => "assembler"
  | .unreadable _ _ => "read"

/-- The message of a cause. -/
def message : CompileCause → Bytes
  | .parsing cause => cause.message
  | .generation misuse => misuse.message.getD []
  | .assembly error => error.message.getD []
  | .unreadable path error => "failed to read file " ++ path ++ ": " ++ error.message

end CompileCause

/-- A failed compilation; line and column are zero where they are not known. -/
structure CompileError where
  cause : CompileCause
  file : Bytes
  line : Nat := 0
  column : Nat := 0
  /-- The lines around the place, if it is in the text that was compiled. -/
  context : Bytes := []
deriving DecidableEq, Repr

/-- The full text of a failed compilation. -/
def CompileError.text (e : CompileError) : Bytes :=
  let file : Bytes := if e.file.isEmpty then [] else e.file ++ ": "
  let place : Bytes :=
    if e.line = 0 then []
    else " at line " ++ Bytes.decimal e.line ++ ", column " ++ Bytes.decimal e.column
  let context : Bytes := if e.context.isEmpty then [] else "\n" ++ e.context
  file ++ e.cause.phase ++ " error" ++ place ++ ": " ++ e.cause.message ++ context

/-- What a compilation depends on besides the source text. -/
structure CompileOptions where
  /-- The load address of the image. -/
  base : UInt16 := 0
  /-- The name of the source, from which quoted includes are found. -/
  fileName : Bytes := []
  /-- Where quoted includes are read from. -/
  source : Option FileTree := none
  /-- Where includes in angle brackets are read from. -/
  library : Option FileTree := none

/-- A loader for the trees of the options; none if there is no tree. -/
def CompileOptions.loader (options : CompileOptions) : Option Loader :=
  if options.source.isNone && options.library.isNone then none
  else some { source := options.source, library := options.library }

/-- A compiled program. -/
structure Compiled where
  image : Image
  /-- The functions in the order of their definition, with their addresses. -/
  functions : List Function
  /-- The globals in the order of their allocation, from the start of the stack. -/
  globals : VariableList

/-- Names an address; the last name given to an address stays. -/
def Labels.assign (labels : Labels) (address : UInt16) (name : Bytes) : Labels :=
  labels.filter (·.1 != address) ++ [(address, name)]

/-- The names of the functions and of the start, by address. -/
def Compiled.labels (compiled : Compiled) : Labels :=
  let functions : Labels := compiled.functions.foldl
    (fun labels f => Labels.assign labels f.address f.name) []
  (Labels.assign functions compiled.image.start "main").mergeSort fun a b => a.1 ≤ b.1

/-- A parse error of a program; `file` and `source` are the name and text compiled. -/
def CompileError.ofParse (file source : Bytes) (e : ParseError) : CompileError := {
  cause := .parsing e.cause
  file := e.file
  line := e.line
  column := e.column
  context := if e.file = file then excerpt source e.line e.column else [] }

/-- Assembles generated code and fills in the addresses of the functions. -/
def assembleProgram (base : UInt16) (file : Bytes) (program : Program) :
    Except CompileError Compiled :=
  match program.generate with
  | .error misuse => .error { cause := .generation misuse, file }
  | .ok (emitter, functions) =>
    match emitter.assemble base with
    | (.error error, _) => .error { cause := .assembly error, file }
    | (.ok image, emitter) => .ok {
        image
        functions := functions.map fun f =>
          { f with address := (emitter.addressOf? f.entry).getD 0 }
        globals := program.globals }

/-- The report of a finished compilation. -/
def Compiled.report (file : Bytes) (compiled : Compiled) : Record := {
  level := .debug
  message := "Compiled program"
  attributes := [
    ("file", file), ("bytes", Bytes.decimal compiled.image.code.length),
    ("start", Bytes.address compiled.image.start.toNat),
    ("functions", Bytes.decimal compiled.functions.length)] }

/-- Compiles a source text; also gives the reports made on the way. -/
def compile (source : Bytes) (options : CompileOptions) :
    Except CompileError Compiled × List Record :=
  let file := (SourceFile.ofName options.fileName).name
  match Program.parse options.loader source options.fileName with
  | (.error e, records) => (.error (.ofParse file source e), records)
  | (.ok program, records) =>
    match assembleProgram options.base file program with
    | .error e => (.error e, records)
    | .ok compiled => (.ok compiled, records ++ [compiled.report file])

/-- Compiles a file of a disk. Without a source tree of their own, quoted includes are
read from the directory of the file. -/
def compileFile (disk : Disk) (path : Bytes) (options : CompileOptions) :
    Except CompileError Compiled × List Record :=
  match disk.readFile path with
  | .error error => (.error { cause := .unreadable path error, file := path }, [])
  | .ok data =>
    let options := match options.source with
      | none => { options with
          source := some (.directory disk (Path.dir path)), fileName := Path.base path }
      | some _ => if options.fileName.isEmpty then { options with fileName := path } else options
    compile (decodeSource data) options

/-- The outcome of one program of a collection. -/
structure ScriptResult where
  script : Script
  result : Except CompileError Compiled
  /-- The reports of its compilation. -/
  records : List Record

/-- Whether the outcome is not what the name of the program asks for. -/
def ScriptResult.failed (r : ScriptResult) : Bool :=
  match r.result with
  | .error _ => !r.script.expectFail
  | .ok _ => r.script.expectFail

/-- Compiles every program of a collection on its own. -/
def compileScripts (scripts : List Script) (options : CompileOptions) : List ScriptResult :=
  scripts.map fun script =>
    let (result, records) := compile script.content { options with fileName := script.name }
    { script, result, records }

end Terrace
