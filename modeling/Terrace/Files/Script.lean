/-
# Script collections

The programs of a file tree: every file whose name ends like a source file. A
program whose name ends in "fail" is expected not to compile.

Key definitions: `Script`, `isSourceName`, `expectsFailure`, `loadScripts`,
`decodeSource`.
-/
import Terrace.Files.Tree

namespace Terrace

/-- File contents as source text: well-formed UTF-8 stays as it is, and anything else
is taken byte by byte for Latin-1. -/
def decodeSource (data : Bytes) : Bytes :=
  if Text.Utf8.isValid data then data else Text.Utf8.ofLatin1 data

/-- A program of a collection. -/
structure Script where
  name : Bytes
  content : Bytes
  /-- The size of the file. -/
  size : Nat
  expectFail : Bool
deriving DecidableEq, Repr

/-- Whether a file name ends like that of a program. -/
def isSourceName (name : Bytes) : Bool :=
  let extension := Path.extension name
  Text.equalFold extension ".peb" || Text.equalFold extension ".txt"

/-- Whether a program of this name is expected not to compile. -/
def expectsFailure (name : Bytes) : Bool :=
  let base := Path.base name
  let stem := base.take (base.length - (Path.extension base).length)
  (Text.toLower stem).endsWith "fail"

/-- Why a collection cannot be loaded. -/
inductive ScriptError where
  | search (cause : FileError)
  | noScripts (root : Bytes)
  | unreadable (name : Bytes) (cause : FileError)
deriving DecidableEq, Repr

/-- The message of a collection that cannot be loaded. -/
def ScriptError.message : ScriptError → Bytes
  | .search cause => "failed to find script files: " ++ cause.message
  | .noScripts root => "no script files found in " ++ root
  | .unreadable name cause =>
    "failed to load script " ++ name ++ ": failed to read file: " ++ cause.message

/-- Loads one program. -/
def loadScript (tree : FileTree) (name : Bytes) : Except ScriptError Script :=
  match tree.readFile name with
  | .error cause => .error (.unreadable name cause)
  | .ok data => .ok {
      name
      content := decodeSource data
      size := data.length
      expectFail := expectsFailure name }

/-- Loads all programs of a tree in the order of their names. -/
def loadScripts (tree : FileTree) (root : Bytes) : Except ScriptError (List Script) :=
  match tree.walk with
  | .error cause => .error (.search cause)
  | .ok files =>
    let names := (files.filter isSourceName).mergeSort Bytes.le
    if names.isEmpty then .error (.noScripts root) else names.mapM (loadScript tree)

end Terrace
