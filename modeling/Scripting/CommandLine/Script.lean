import Scripting.CommandLine.Console
import Scripting.File

set_option autoImplicit false

/-! # Running a script

A script is read from a file as a whole (`runScript`). It is run only if all of it is a program
(`runSource`); a fault is reported with the line it points at. -/

namespace Scripting.CommandLine

/-- Run the text `source`, which reports call `name`, and end with the status that it calls for. -/
def runSource (limits : Limits) (name source : String) (c : Console) : Console × Ending :=
  match Program.ofSource limits.nesting source with
  | .error (.fault f) => (c.writeError ((Report.mk f (some name)).excerpt source), failure)
  | .error .tooDeep => (c.writeError fatalMessage, fatal)
  | .ok (tokens, p) =>
    let c := (readNote name p :: dump tokens p).foldl Console.trace c
    match c.run limits p with
    | (c, none) => (c, success)
    | (c, some (.fault f)) => (c.writeError ((Report.mk f (some name)).excerpt source), failure)
    | (c, some .exhausted) => (c.writeError fatalMessage, fatal)
    | (c, some .interrupted) => (c, .escaped .interrupted)
    | (c, some (.misplaced m)) => (c, .escaped (.misplaced m))
    | (c, some .unfinished) => (c, .unfinished)

/-- Run the script in `file`, found at `path`. A file that cannot be opened is reported; bytes that
    are no text are not handled. -/
def runScript (limits : Limits) (path : String) (file : File) (c : Console) : Console × Ending :=
  match file.read with
  | .error e => (c.writeError s!"Error reading file: {e.messageFor path}", failure)
  | .ok content =>
    match textOfBytes content with
    | .error f => (c, .escaped (.undecodable f))
    | .ok source => runSource limits path source c

end Scripting.CommandLine
