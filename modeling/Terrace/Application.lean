/-
# The application

What the command line program does: it shows its help, compiles a program and does
with it what the options ask for, or checks the programs of a directory.

Key definitions: `Work.ofArguments`, `Application.run`.
-/
import Terrace.Application.Work
import Terrace.Options.Help

namespace Terrace

/-- Does what the command line asks for. -/
def Work.ofArguments (arguments : List Bytes) (env : Environment) : Work Unit := do
  match ← orFail .options (Invocation.ofArguments arguments env) with
  | .help _ => print helpText
  | .work o =>
    match o.job with
    | .check dir => checkScripts o dir
    | .build source manifest => build o source manifest

/-- Runs the application on a world; gives the world it leaves, and the failure if
there is one. -/
def Application.run (arguments : List Bytes) (env : Environment) (w : World) :
    World × Option Failure :=
  match Work.ofArguments arguments env w with
  | .ok _ w => (w, none)
  | .error failure w => (w, some failure)

end Terrace
