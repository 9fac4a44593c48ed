import Scripting.CommandLine.Command

set_option autoImplicit false

/-! # The program

The command on the streams of the system. A run is given the input that has arrived so far. Where it
asks for more, it is broken off, what it has written is shown, and it is taken up again with one
line more from the place where it began (`runLive`); it then writes the same text first, which is
not shown a second time. -/

namespace Scripting.CommandLine

/-! ## Consoles with text still to be shown -/

/-- How much of the two texts of a console has been shown. -/
structure Shown where
  output : Nat
  errors : Nat

/-- Show what `c` has written beyond what has been shown, `s`. -/
def Console.showFrom (c : Console) (s : Shown) : IO Shown := do
  IO.print (c.machine.output.drop s.output).toString
  (← IO.getStdout).flush
  IO.eprint (c.errors.drop s.errors).toString
  return ⟨c.machine.output.length, c.errors.length⟩

/-- A console whose texts have been shown and are forgotten. -/
def Console.cleared (c : Console) : Console :=
  { machine := { c.machine with output := "" }, errors := "" }

/-- The console `c` with another `line` of input, or with its input closed where there is none. -/
def Console.feed (c : Console) (line : String) : Console :=
  if line.isEmpty then { c with machine := { c.machine with inputEnd := .closed } }
  else
    let more := Text.unifyLineEnds line.toList
    { c with machine := { c.machine with input := c.machine.input ++ more } }

/-! ## Runs that wait for input -/

/-- Take the run `attempt` up again with more input for as long as it asks for it. -/
partial def runLive (attempt : Console → Console × Ending) (c : Console) (s : Shown) :
    IO Ending := do
  let (after, ending) := attempt c
  let s ← after.showFrom s
  if ending = .escaped .interrupted then
    runLive attempt (c.feed (← (← IO.getStdin).getLine)) s
  else
    return ending

/-- Take the steps of a `session`, each with as much input as it asks for. -/
partial def converse (limits : Limits) (session : Interactive) (s : Shown) : IO Ending := do
  match session.step limits with
  | .next after =>
    let _ ← after.console.showFrom s
    converse limits { after with console := after.console.cleared } ⟨0, 0⟩
  | .ended after ending =>
    let _ ← after.showFrom s
    return ending
  | .interrupted after =>
    let s ← after.showFrom s
    let line ← (← IO.getStdin).getLine
    converse limits { session with console := session.console.feed line } s

/-! ## The surroundings -/

/-- What the file system holds at `path`. -/
def fileOnDisk (path : String) : IO File := do
  try
    return .bytes (← IO.FS.readBinFile path)
  catch
    | .noFileOrDirectory .. => return .missing
    | .inappropriateType .. => return .directory
    | _ => return .locked

/-- The variables of the environment that the command knows. -/
def environment : IO Environment := do
  return { debug := ← IO.getEnv debugVariable, recursionLimit := ← IO.getEnv limitVariable }

/-- The exit status of an ending. An error that is not handled is shown. -/
def exitStatus : Ending → IO UInt32
  | .status code => return code
  | .unfinished => return 2
  | .escaped e => do
    IO.eprintln e.message
    return 1

/-- Take an action. -/
def act (limits : Limits) (c : Console) : Action → IO Ending
  | .interactive => converse limits ⟨c.write banner, []⟩ ⟨0, 0⟩
  | .script path => do
    let file ← fileOnDisk path
    runLive (runScript limits path file) c ⟨0, 0⟩
  | .explain ending => do
    let _ ← (c.write usage).showFrom ⟨0, 0⟩
    return ending

end Scripting.CommandLine

open Scripting Scripting.CommandLine in
/-- The command. -/
def main (arguments : List String) : IO UInt32 := do
  let surroundings ← environment
  let c := Console.start surroundings.tracing [] .interrupts
  match surroundings.settle c with
  | .error e => exitStatus (.escaped e)
  | .ok c => exitStatus (← act .standard c (.ofArguments arguments))
