/-
# File trees

Where programs and the files they include are read from: files held in memory, or
a directory of a disk seen from inside, where no name leads out of it. A file can
be found by a name in another letter case when the name itself is not there.

Key definitions: `FileTree`, `FileTree.readFile`, `FileTree.entries`,
`FileTree.findFile`, `FileTree.readFolded`, `FileTree.walk`.
-/
import Terrace.Files.Disk
import Terrace.Text.LetterCase

namespace Terrace

/-- A tree of files. -/
inductive FileTree where
  /-- Files held in memory, by path. -/
  | memory (files : List (Bytes × Bytes))
  /-- A directory of a disk. -/
  | directory (disk : Disk) (root : Bytes)
deriving DecidableEq, Repr

/-- A name in a directory. -/
structure Entry where
  name : Bytes
  isDirectory : Bool
deriving DecidableEq, Repr

/-- The first element of a path and whether more follow. -/
def Entry.ofPath (path : Bytes) : Entry :=
  let (name, rest) := Bytes.splitAtFirst (· == Path.slash) path
  ⟨name, !rest.isEmpty⟩

/-- Adds an entry to a directory; a file hides a directory of its name. -/
def Entry.insert (entries : List Entry) (entry : Entry) : List Entry :=
  match entries.find? (·.name == entry.name) with
  | none => entries ++ [entry]
  | some _ =>
    if entry.isDirectory then entries
    else entries.map fun other => if other.name == entry.name then entry else other

/-- The entries of the paths below a directory, by name. -/
def entriesBelow (dir : Bytes) (paths : List Bytes) : List Entry :=
  let start : Bytes := if dir = "." then [] else dir ++ [Path.slash]
  let found := paths.filterMap fun path =>
    if path.startsWith start then some (Entry.ofPath (path.drop start.length)) else none
  (found.foldl Entry.insert []).mergeSort fun a b => a.name.le b.name

namespace FileTree

/-- A bound on what a tree can hold: the length of all its names and texts. -/
def weight : FileTree → Nat
  | .memory files | .directory { files, .. } _ =>
    files.foldr (fun file weight => file.1.length + file.2.length + 1 + weight) 0

/-- Whether a name in memory is a directory. -/
def isMemoryDirectory (files : List (Bytes × Bytes)) (name : Bytes) : Bool :=
  name == "." || files.any fun (path, _) => path.startsWith (name ++ [Path.slash])

/-- The path on the disk of a name inside a directory. -/
def diskPath (root name : Bytes) : Bytes :=
  if root.getLast? = some Path.slash then root ++ name else root ++ Path.slash :: name

/-- Whether a name may be looked up in a directory of a disk. -/
def isLocal (name : Bytes) : Bool := Path.isValid name && !name.contains 0

/-- The contents of a file. -/
def readFile (tree : FileTree) (name : Bytes) : Except FileError Bytes :=
  match tree with
  | .memory files =>
    if !Path.isValid name then .error ⟨"open", name, .missing⟩
    else match files.lookup name with
      | some contents => .ok contents
      | none =>
        if isMemoryDirectory files name then .error ⟨"read", name, .invalid⟩
        else .error ⟨"open", name, .missing⟩
  | .directory disk root =>
    if !isLocal name then .error ⟨"readfile", name, .invalid⟩
    else match disk.readFile (diskPath root name) with
      | .ok contents => .ok contents
      | .error e => .error { e with path := name }

/-- The entries of a directory, by name. -/
def entries (tree : FileTree) (name : Bytes) : Except FileError (List Entry) :=
  match tree with
  | .memory files =>
    if !Path.isValid name then .error ⟨"open", name, .missing⟩
    else if (files.lookup name).isSome then .error ⟨"readdir", name, .notImplemented⟩
    else if isMemoryDirectory files name then .ok (entriesBelow name (files.map Prod.fst))
    else .error ⟨"open", name, .missing⟩
  | .directory disk root =>
    if !isLocal name then .error ⟨"readdir", name, .invalid⟩
    else match disk.locate (diskPath root name) with
      | .error problem => .error ⟨"open", name, problem⟩
      | .ok (_, .file _) => .error ⟨"readdirent", name, .notDirectory⟩
      | .ok (place, .directory) =>
        let paths := (disk.files.map Prod.fst ++ disk.directories.map (· ++ [Path.slash]))
        .ok (entriesBelow place (if place = "." then paths.filter Disk.isInside else paths))

/-- Whether the tree itself is there. -/
def check (tree : FileTree) : Except FileError Unit :=
  match tree with
  | .memory _ => .ok ()
  | .directory disk root =>
    match disk.locate (diskPath root ".") with
    | .error problem => .error ⟨"stat", ".", problem⟩
    | .ok _ => .ok ()

end FileTree

/-- Why no file was found by a name in any letter case. -/
inductive FindError where
  | unreadable (dir : Bytes) (cause : FileError)
  | notFound (name dir : Bytes)
deriving DecidableEq, Repr

/-- The message of a failed search. -/
def FindError.message : FindError → Bytes
  | .unreadable dir cause => "failed to read directory " ++ dir ++ ": " ++ cause.message
  | .notFound name dir =>
    "file not found: " ++ name ++ " (searched in " ++ dir ++ "): " ++ FileProblem.missing.words

namespace FileTree

/-- The path of the first file of a directory whose name matches up to letter case. -/
def findFile (tree : FileTree) (dir name : Bytes) : Except FindError Bytes :=
  match tree.entries dir with
  | .error cause => .error (.unreadable dir cause)
  | .ok entries =>
    match entries.find? fun entry => !entry.isDirectory && Text.equalFold entry.name name with
    | some entry => .ok (Path.join dir entry.name)
    | none => .error (.notFound name dir)

/-- Reads a file by its name or, if there is none, by its last element in another
letter case. Gives the contents and the path that was read. -/
def readFolded (tree : FileTree) (name : Bytes) : Except FileError (Bytes × Bytes) :=
  match tree.readFile name with
  | .ok contents => .ok (contents, name)
  | .error e =>
    if !e.isMissing then .error e
    else match tree.findFile (Path.dir name) (Path.base name) with
      | .error _ => .error e
      | .ok actual =>
        match tree.readFile actual with
        | .ok contents => .ok (contents, actual)
        | .error e => .error e

/-- The files below a directory, entry by entry, through at most `fuel` directories
one inside the other. -/
def walkFrom (tree : FileTree) : Nat → Bytes → Except FileError (List Bytes)
  | 0, _ => .ok []
  | fuel + 1, dir => do
    let entries ← tree.entries dir
    let found ← entries.mapM fun entry =>
      let name := Path.join dir entry.name
      if entry.isDirectory then tree.walkFrom fuel name else .ok [name]
    return found.flatten

/-- All files of a tree. A path has fewer elements than bytes, so the weight of the
tree bounds its depth. -/
def walk (tree : FileTree) : Except FileError (List Bytes) := do
  tree.check
  tree.walkFrom (tree.weight + 1) "."

end FileTree

end Terrace
