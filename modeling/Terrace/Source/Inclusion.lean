/-
# Included files

Resolves the names on include lines and reads the files. A quoted name is relative
to the file it stands in; a name in angle brackets is looked up in the library. A
file is active from its opening until it is closed, and may not be opened again
while it is.

Key definitions: `SourceFile`, `SourceFile.key`, `Loader`, `Loader.resolve`,
`Loader.openFile`, `Loader.enter`, `Loader.close`, `IncludeError`.
-/
import Terrace.Files.Script

namespace Terrace

/-- A file of the program's own tree or of the library. -/
structure SourceFile where
  name : Bytes := []
  isLibrary : Bool := false
deriving DecidableEq, Repr

/-- How a file is identified and shown: a library file between angle brackets. -/
def SourceFile.key (file : SourceFile) : Bytes :=
  if file.isLibrary then "<" ++ file.name ++ ">" else file.name

/-- Why a file cannot be included. -/
inductive IncludeError where
  | emptyPath
  | invalidPath (target : Bytes)
  | noLibrary (target : Bytes)
  | circular (key : Bytes)
  | noSource (key : Bytes)
  | unreadable (key : Bytes) (cause : FileError)
deriving DecidableEq, Repr

/-- The message of a failed inclusion. -/
def IncludeError.message : IncludeError → Bytes
  | .emptyPath => "empty include path"
  | .invalidPath target => "invalid include path " ++ target
  | .noLibrary target => "no include directory configured for " ++ target
  | .circular key => "circular include detected: " ++ key
  | .noSource key => "cannot include " ++ key ++ " without a source directory"
  | .unreadable key cause => "failed to read file " ++ key ++ ": " ++ cause.message

/-- The clean form of a name, with slashes for backslashes and not from the root. -/
def cleanName (name : Bytes) : Bytes :=
  let path := Path.clean (name.map fun b => if b = '\\'.toUInt8 then Path.slash else b)
  if Path.isRooted path then path.drop 1 else path

/-- The file of a top-level source; unnamed input has the empty name. -/
def SourceFile.ofName (name : Bytes) : SourceFile :=
  if name.isEmpty then {} else { name := cleanName name }

/-- The trees files are included from, and the files that are active. -/
structure Loader where
  source : Option FileTree := none
  library : Option FileTree := none
  active : List Bytes := []
deriving DecidableEq, Repr

namespace Loader

/-- The file that a name on an include line of file `origin` stands for. -/
def resolve (loader : Loader) (origin : SourceFile) (target : Bytes) :
    Except IncludeError SourceFile :=
  if target.isEmpty then .error .emptyPath
  else if target.startsWith "<" then
    if !target.endsWith ">" || target.length < 3 then .error (.invalidPath target)
    else if loader.library.isNone then .error (.noLibrary target)
    else .ok { name := cleanName ((target.drop 1).dropLast), isLibrary := true }
  else .ok {
    name := cleanName (Path.join (Path.dir origin.name) target)
    isLibrary := origin.isLibrary }

/-- Marks a file active that was read in another way. -/
def enter (loader : Loader) (file : SourceFile) : Except IncludeError Loader :=
  if loader.active.contains file.key then .error (.circular file.key)
  else .ok { loader with active := file.key :: loader.active }

/-- The tree a file is in. -/
def treeOf (loader : Loader) (file : SourceFile) : Option FileTree :=
  if file.isLibrary then loader.library else loader.source

/-- Reads a file and marks it active. -/
def openFile (loader : Loader) (file : SourceFile) : Except IncludeError (Bytes × Loader) :=
  if loader.active.contains file.key then .error (.circular file.key)
  else match loader.treeOf file with
    | none => .error (.noSource file.key)
    | some tree =>
      match tree.readFolded file.name with
      | .error cause => .error (.unreadable file.key cause)
      | .ok (data, _) =>
        .ok (decodeSource data, { loader with active := file.key :: loader.active })

/-- Marks a file finished. -/
def close (loader : Loader) (file : SourceFile) : Loader :=
  { loader with active := loader.active.filter (· != file.key) }

/-- A bound on the length of the keys of included files. The name of such a file is one a
disk accepts, or it agrees with a path of its tree up to letter case, which turns a byte
into at most four; the key of a library file has two brackets more. -/
def keyBound (loader : Loader) : Nat :=
  let weightOf (tree : Option FileTree) : Nat := (tree.map FileTree.weight).getD 0
  4 * (weightOf loader.source + weightOf loader.library) + Disk.maxPath + 2

/-- A bound on how many files can be active at once: they have distinct keys. -/
def depthBound (loader : Loader) : Nat := Nat.pow 256 (loader.keyBound + 1)

/-- How many include lines may be read inside each other; without a loader the first one
fails. -/
def depthOf : Option Loader → Nat
  | some loader => loader.depthBound
  | none => 1

end Loader

end Terrace
