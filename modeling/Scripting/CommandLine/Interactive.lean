import Scripting.CommandLine.Console

set_option autoImplicit false

/-! # The interactive loop

Lines are read one by one and gathered until they make up a program, which is then run on the one
machine of the session (`Interactive.step`). Lines that are refused at the end of what was typed
wait for more; lines that are refused for any other reason are reported and dropped. A program that
stops is reported, and the session goes on with what it had done. `runInteractive` is a session from
its banner to its end. -/

namespace Scripting.CommandLine

/-! ## Sessions -/

/-- A session: its `console`, and the lines `gathered` so far, last first. -/
structure Interactive where
  console : Console
  gathered : List String

/-- What a step of a session leads to. -/
inductive Step where
  | next (s : Interactive)
  | ended (c : Console) (e : Ending)
  /-- The input was broken off. -/
  | interrupted (c : Console)

/-- The name under which reports quote what was typed. -/
def typedName : String := "<stdin>"

/-- What a session begins with. -/
def banner : String :=
  "Sprig Language Interpreter - REPL\nType \x60exit\x60 or \x60quit\x60 to leave.\n"

/-- What asks for the first line of a program, and for a further one where lines are `gathered`. -/
def prompt (gathered : List String) : String :=
  if gathered.isEmpty then ">>> " else "... "

/-- Whether `line` asks to leave. -/
def leaves (line : List Char) : Bool :=
  ["exit", "quit"].contains (String.ofList (Text.trim line))

/-- The lines `gathered` as one text, in the order in which they were typed. -/
def sourceOf (gathered : List String) : String :=
  String.intercalate "\n" gathered.reverse

/-- Report the fault `f` in the typed text `source`. -/
def reportTyped (c : Console) (source : String) (f : Fault) : Console :=
  c.writeError ((Report.mk f (some typedName)).excerpt source)

/-- Run `p`, the program that the gathered lines make up. -/
def runTyped (limits : Limits) (source : String) (p : Program) (c : Console) : Step :=
  match (c.trace (readNote typedName p)).run limits p with
  | (c, none) => .next ⟨c, []⟩
  | (c, some (.fault f)) => .next ⟨reportTyped c source f, []⟩
  | (c, some .exhausted) => .ended (c.writeError fatalMessage) fatal
  | (c, some .interrupted) => .interrupted c
  | (c, some (.misplaced m)) => .ended c (.escaped (.misplaced m))
  | (c, some .unfinished) => .ended c .unfinished

/-- Take the lines `gathered` as a program if they are one; wait for more lines if they end too
    early. -/
def takeTyped (limits : Limits) (gathered : List String) (c : Console) : Step :=
  let source := sourceOf gathered
  match Program.ofSource limits.nesting source with
  | .ok (_, p) => runTyped limits source p c
  | .error .tooDeep => .ended (c.writeError fatalMessage) fatal
  | .error (.fault f) =>
    if f.isAtEnd then .next ⟨c, gathered⟩ else .next ⟨reportTyped c source f, []⟩

/-- Ask for a line and take it in. A session ends with its input, or with a line that `leaves` where
    no lines are gathered. -/
def Interactive.step (limits : Limits) (s : Interactive) : Step :=
  let c := s.console.write (prompt s.gathered)
  match Text.takeLine c.machine.input with
  | ([], _) =>
    match c.machine.inputEnd with
    | .closed => .ended (c.write "\n") success
    | .interrupts => .interrupted c
  | (line, rest) =>
    let c := { c with machine := { c.machine with input := rest } }
    let text := if line.getLast? = some '\n' then line.dropLast else line
    -- inside a program that is being gathered, the words are part of it
    if s.gathered.isEmpty && leaves text then .ended c success
    else takeTyped limits (String.ofList text :: s.gathered) c

/-! ## Whole sessions -/

/-- Take the end of a session whose input was broken off: from the keyboard, or by bytes that are no
    text, which nothing handles. -/
def breakOff (c : Console) : Option Text.Utf8Fault → Console × Ending
  | none => (c.write "\nInterrupted.\n", success)
  | some f => (c, .escaped (.undecodable f))

/-- Take steps until the session ends, at most as many as there are rounds. `fault` tells what is
    wrong with the input where it is broken off, if it was not from the keyboard. -/
def Interactive.runWithin (limits : Limits) :
    Nat → Interactive → (fault : Option Text.Utf8Fault := none) → Console × Ending
  | 0, s, _ => (s.console, success)
  | rounds + 1, s, fault =>
    match s.step limits with
    | .next s => runWithin limits rounds s fault
    | .ended c e => (c, e)
    | .interrupted c => breakOff c fault

/-- A session from the `banner` to its end. Each step but the last reads a line, so that no more
    steps are needed than the input has characters, and one. -/
def runInteractive (limits : Limits) (c : Console) (fault : Option Text.Utf8Fault := none) :
    Console × Ending :=
  Interactive.runWithin limits (c.machine.input.length + 1) ⟨c.write banner, []⟩ fault

end Scripting.CommandLine
