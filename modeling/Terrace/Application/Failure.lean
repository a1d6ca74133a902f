/-
# Failures

Why the application stops, and what it says then.

Key definitions: `RunFailure`, `WriteFailure`, `Failure`, `Failure.text`.
-/
import Terrace.Compilation
import Terrace.Link.Linked
import Terrace.Machine.Run
import Terrace.Options.Error

namespace Terrace

/-- Why a program did not run to its end. -/
inductive RunFailure where
  | load (fault : Fault)
  /-- The run ended early; the message tells where. -/
  | stopped (finish : RunEnd) (message : Bytes)
  /-- A global cannot be read after the run. -/
  | globals (stop : Stop)

/-- The message of a failed run. -/
def RunFailure.message : RunFailure → Bytes
  | .load fault => fault.message
  | .stopped _ message => message
  | .globals (.fault fault) => fault.message
  | .globals .crash => []

/-- Why a program was not written out. -/
inductive WriteFailure where
  | noManifest (error : FileError)
  | unreadableManifest (path : Bytes) (error : FileError)
  | manifest (path : Bytes) (error : ManifestError)
  /-- A file in the manifest is not there. -/
  | noFile (error : FileError)
  | link (error : LinkError)
  | file (error : FileError)

/-- The message of a program that was not written out. -/
def WriteFailure.message : WriteFailure → Bytes
  | .noManifest error => "failed to read manifest file: " ++ error.message
  | .unreadableManifest path error => path ++ ": failed to read manifest: " ++ error.message
  | .manifest path error => path ++ ": " ++ error.message
  | .noFile error => "failed to open file found in manifest: " ++ error.message
  | .link error => error.message
  | .file error => error.message

/-- Why the application failed. -/
inductive Failure where
  | options (error : OptionError)
  | noRoutines (error : FileError)
  | unreadableRoutines (reason : Bytes)
  | noOrigin (path : Bytes)
  | compile (error : CompileError)
  | listing (message : Bytes)
  | run (source : Bytes) (cause : RunFailure)
  | write (path : Bytes) (cause : WriteFailure)
  | scripts (error : ScriptError)
  | cancelled
  | unexpected (failed total : Nat)

/-- The text of a failure. -/
def Failure.text : Failure → Bytes
  | .options error => "failed to parse args: " ++ error.message
  | .noRoutines error => "failed to open routine library: " ++ error.message
  | .unreadableRoutines reason => RoutineLibrary.unreadableMessage reason
  | .noOrigin path => "no .org address found in " ++ path
  | .compile error => error.text
  | .listing message => "failed to write listing: " ++ message
  | .run source cause => "failed to run " ++ source ++ ": " ++ cause.message
  | .write path cause => "failed to write " ++ path ++ ": " ++ cause.message
  | .scripts error => "failed to load scripts: " ++ error.message
  | .cancelled => "context canceled"
  | .unexpected failed total =>
    Bytes.decimal failed ++ " of " ++ Bytes.decimal total
      ++ " scripts did not compile as expected"

end Terrace
