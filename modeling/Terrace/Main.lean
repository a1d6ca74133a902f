/-
# The command line

Connects the application to the real terminal, files and environment: the files in
reach are read into a disk, the application runs on it, and what it shows, logs and
writes is passed on.

Key definitions: `gather`, `reachable`, `main`.
-/
import Terrace.Application

namespace Terrace

/-- Reads a file, or a directory and all below it to a certain depth, into a disk. -/
def gather : Nat → Disk → String → IO Disk
  | 0, disk, _ => return disk
  | depth + 1, disk, name => do
    let place := (← IO.currentDir) / name
    let path := Path.clean name
    if ← place.isDir then
      let mut disk :=
        if path = "." then disk else { disk with directories := path :: disk.directories }
      for entry in ← place.readDir do
        disk ← gather depth disk (name ++ "/" ++ entry.fileName)
      return disk
    else if ← place.pathExists then
      return disk.put path (← IO.FS.readBinFile place).data.toList
    else return disk

/-- What a command line can reach: the current directory, and what stands at and beside
the paths in it that lead elsewhere. -/
def reachable (arguments : List Bytes) (env : Environment) : List Bytes :=
  let elsewhere (path : Bytes) : Bool := Path.isRooted path || path.startsWith ".."
  "." :: ((env.includeDir :: arguments).filter elsewhere).flatMap fun path =>
    [Path.dir path, path]

/-- The text of a variable of the environment; empty if it is not set. -/
def variableText (name : String) : IO Bytes := do
  return Bytes.ofString ((← IO.getEnv name).getD "")

/-- The variables that matter. -/
def readEnvironment : IO Environment := do
  return {
    logLevel := ← variableText "LOG_LEVEL"
    includeDir := ← variableText "PEBBLE_INCLUDE"
    timeout := ← variableText "TIMEOUT" }

/-- Whether a command line reads answers to system calls from the terminal. -/
def readsInput (arguments : List Bytes) (env : Environment) : Bool :=
  match Invocation.ofArguments arguments env with
  | .ok (.work o) => o.interactive && o.run
  | _ => false

/-- Bytes as they are passed to the system. -/
def packed (bytes : Bytes) : ByteArray := ⟨bytes.toArray⟩

/-- Writes the files that are new or changed. -/
def writeChanges (old new : Disk) : IO Unit := do
  for (path, contents) in new.files do
    if old.files.lookup path ≠ some contents then
      match String.fromUTF8? (packed path) with
      | some name => IO.FS.writeBinFile name (packed contents)
      | none => pure ()

end Terrace

open Terrace in
/-- Runs the application and tells whether it succeeded. -/
def main (arguments : List String) : IO UInt32 := do
  let arguments := arguments.map Bytes.ofString
  let env ← readEnvironment
  let mut disk : Disk := {}
  for path in reachable arguments env do
    disk ← gather 64 disk ((String.fromUTF8? (packed path)).getD ".")
  let input ←
    if readsInput arguments env then (← IO.getStdin).readBinToEnd else pure ByteArray.empty
  let (w, failure?) :=
    Application.run arguments env { disk, terminal := { input := input.data.toList } }
  (← IO.getStdout).write (packed w.shown)
  (← IO.getStderr).write (packed w.logText)
  writeChanges disk w.disk
  match failure? with
  | none => return 0
  | some failure =>
    (← IO.getStderr).write (packed ("Error: " ++ failure.text ++ "\n"))
    return 1
