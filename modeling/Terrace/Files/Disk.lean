/-
# Disks

Real files as the operating system shows them: paths relative to the current
directory, directories that exist because something is in them or because the current
directory lies below them, and the system's words for what goes wrong.

Key definitions: `FileProblem`, `FileError`, `Disk`, `Disk.locate`, `Disk.readFile`,
`Disk.writeFile`, `Disk.inside`.
-/
import Terrace.Text.Path

namespace Terrace

/-- What can be wrong with a file operation. -/
inductive FileProblem where
  /-- The name is not in a tree held in memory. -/
  | missing
  /-- The name is not on the disk. -/
  | noSuchFile
  | notDirectory
  | isDirectory
  | invalid
  | notImplemented
  | nameTooLong
deriving DecidableEq, Repr

/-- The words for a problem. -/
def FileProblem.words : FileProblem → Bytes
  | .missing => "file does not exist"
  | .noSuchFile => "no such file or directory"
  | .notDirectory => "not a directory"
  | .isDirectory => "is a directory"
  | .invalid => "invalid argument"
  | .notImplemented => "not implemented"
  | .nameTooLong => "file name too long"

/-- A failed file operation. -/
structure FileError where
  operation : Bytes
  path : Bytes
  problem : FileProblem
deriving DecidableEq, Repr

namespace FileError

/-- The message of a failed operation. -/
def message (e : FileError) : Bytes := e.operation ++ " " ++ e.path ++ ": " ++ e.problem.words

/-- Whether the operation failed because there is no such file. -/
def isMissing (e : FileError) : Bool := e.problem == .missing || e.problem == .noSuchFile

end FileError

/-- What a path leads to. -/
inductive Node where
  | file (contents : Bytes)
  | directory
deriving DecidableEq, Repr

/-- Files by their clean paths, and directories that need not hold a file. -/
structure Disk where
  files : List (Bytes × Bytes) := []
  directories : List Bytes := []
deriving DecidableEq, Repr

namespace Disk

/-- The directories that every system has below its root. -/
def systemDirectories : List Bytes := ["/dev", "/etc", "/tmp", "/usr"]

/-- The file that is always empty. -/
def nullFile : Bytes × Bytes := ("/dev/null", [])

/-- The disk of a system with files written to the paths given. -/
def ofFiles (files : List (Bytes × Bytes)) : Disk where
  files := files.map (fun (path, contents) => (Path.clean path, contents)) ++ [nullFile]
  directories := systemDirectories

/-- Whether a clean path is the root, the current directory or one above it. -/
def isAbove (path : Bytes) : Bool :=
  path = [Path.slash] || path = "." || (Path.elements path).all (· == "..")

/-- Whether a clean path stays in the current directory. -/
def isInside (path : Bytes) : Bool :=
  !Path.isRooted path && (Path.elements path).head? != some ".."

/-- The files in the current directory and below it. -/
def inside (disk : Disk) : List (Bytes × Bytes) := disk.files.filter (isInside ·.1)

/-- What a clean path leads to. A directory is one that is listed, that something
lies below, or that the current directory is in. -/
def node? (disk : Disk) (path : Bytes) : Option Node :=
  match disk.files.lookup path with
  | some contents => some (.file contents)
  | none =>
    let inside : Bytes := path ++ [Path.slash]
    let below (other : Bytes) : Bool := other.startsWith inside
    if isAbove path || disk.directories.contains path || disk.files.any (fun file => below file.1)
        || disk.directories.any below then
      some .directory
    else none

/-- The longest element of a path. -/
def maxElement : Nat := 255

/-- The longest path. -/
def maxPath : Nat := 4095

/-- Follows path elements from a place with a clean path. -/
def follow (disk : Disk) (place : Bytes) : List Bytes → Except FileProblem Bytes
  | [] => .ok place
  | element :: rest =>
    if disk.node? place ≠ some .directory then .error .notDirectory
    else if element = [] || element = "." then disk.follow place rest
    else if maxElement < element.length then .error .nameTooLong
    else
      let next := Path.join place element
      if (disk.node? next).isSome then disk.follow next rest else .error .noSuchFile

/-- What keeps the system from looking at a path at all. -/
def pathProblem? (path : Bytes) : Option FileProblem :=
  if path.isEmpty then some .noSuchFile
  else if path.contains 0 then some .invalid
  else if maxPath < path.length then some .nameTooLong
  else none

/-- Where the search for a path starts. -/
def startOf (path : Bytes) : Bytes := if Path.isRooted path then [Path.slash] else "."

/-- The clean path of the place a path leads to, and what is there. -/
def locate (disk : Disk) (path : Bytes) : Except FileProblem (Bytes × Node) :=
  match pathProblem? path with
  | some problem => .error problem
  | none => do
    let place ← disk.follow (startOf path) (Path.elements path)
    match disk.node? place with
    | some node => return (place, node)
    | none => .error .noSuchFile

/-- The contents of a file. -/
def readFile (disk : Disk) (path : Bytes) : Except FileError Bytes :=
  match disk.locate path with
  | .error problem => .error ⟨"open", path, problem⟩
  | .ok (_, .directory) => .error ⟨"read", path, .isDirectory⟩
  | .ok (_, .file contents) => .ok contents

/-- Whether a path leads somewhere. -/
def stat (disk : Disk) (path : Bytes) : Except FileError Node :=
  match disk.locate path with
  | .error problem => .error ⟨"stat", path, problem⟩
  | .ok (_, node) => .ok node

/-- Puts a file at a clean path. -/
def put (disk : Disk) (path contents : Bytes) : Disk :=
  { disk with files := disk.files.filter (·.1 != path) ++ [(path, contents)] }

/-- The clean path of the file a path names for writing. Its last element need not be
there, but those before it lead to a directory; a path that ends in a slash, `.` or
`..` names a directory. -/
def target (disk : Disk) (path : Bytes) : Except FileProblem Bytes :=
  match pathProblem? path with
  | some problem => .error problem
  | none => do
    let trimmed := Bytes.dropRightWhile (· == Path.slash) path
    let name := Path.afterSlash trimmed
    let before := trimmed.take (trimmed.length - name.length)
    let place ← disk.follow (startOf path) (Path.elements before)
    if disk.node? place ≠ some .directory then .error .notDirectory
    else if name = [] || name = "." || name = ".." || trimmed ≠ path then .error .isDirectory
    else if maxElement < name.length then .error .nameTooLong
    else
      let file := Path.join place name
      if disk.node? file = some .directory then .error .isDirectory else return file

/-- Writes a file, which is created in an existing directory if it is not there. -/
def writeFile (disk : Disk) (path contents : Bytes) : Except FileError Disk :=
  match disk.target path with
  | .error problem => .error ⟨"open", path, problem⟩
  | .ok file => .ok (disk.put file contents)

end Disk

end Terrace
