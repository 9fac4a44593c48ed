import Scripting.CommandLine.Interactive
import Scripting.CommandLine.Script
import Scripting.CommandLine.Settings

set_option autoImplicit false

/-! # The command

Without arguments the command starts an interactive session; with the path of a script it runs the
script; asked for help, or called in any other way, it explains itself (`Action.ofArguments`). The
settings come before anything else (`Environment.settle`). A limit that leaves an action less room
than it takes to begin ends it there (`Environment.reaches`). `Invocation.run` carries the command
out. -/

namespace Scripting.CommandLine

/-- What the command finds when it is called. The `input` is given as text, as far as the host gets
    with its bytes: `inputFault` tells what is wrong with those behind it, if there are some that
    are no text. As bytes are decoded ahead of the line that is asked for, `input` may end some
    lines before these. -/
structure Invocation where
  arguments : List String
  file : String → File
  input : List Char
  inputEnd : InputEnd
  environment : Environment
  inputFault : Option Text.Utf8Fault := none

/-- What the command leaves behind: how it ended, and what it wrote to its two streams. -/
structure Outcome where
  ending : Ending
  output : String
  errors : String

/-- What the command is asked to do. -/
inductive Action where
  | interactive
  | script (path : String)
  | explain (e : Ending)

/-- The explanation of the command, line by line. -/
def usageLines : List String :=
  ["",
   "Sprig Language Interpreter",
   "",
   "Usage:",
   "    sprig <script.sprig>",
   "",
   "Arguments:",
   "    <script.sprig>",
   "        Path to a Sprig source file to execute.",
   "",
   "Example:",
   "    sprig hello.sprig",
   "",
   "Or run with no arguments to enter interactive mode (REPL).",
   "",
   "Options:",
   "    -h, --help",
   "        Show this help message and exit."]

/-- The explanation of the command. -/
def usage : String :=
  String.join (usageLines.map (· ++ "\n"))

/-- What the arguments ask for. -/
def Action.ofArguments : List String → Action
  | [] => .interactive
  | [argument] =>
    if argument = "-h" ∨ argument = "--help" then .explain success else .script argument
  | _ => .explain failure

/-- The ending `e` with the error that broke the input off in the place of an interruption. -/
def Ending.brokenOffBy (e : Ending) : Option Text.Utf8Fault → Ending
  | none => e
  | some f => if e = .escaped .interrupted then .escaped (.undecodable f) else e

@[simp] theorem Ending.brokenOffBy_none (e : Ending) : e.brokenOffBy none = e := rfl

/-- Take the action `a`. `file` tells what is at a path, and `fault` what is wrong with the input
    where it is broken off. -/
def Action.run (limits : Limits) (file : String → File) (c : Console) (a : Action)
    (fault : Option Text.Utf8Fault := none) : Console × Ending :=
  match a with
  | .interactive => runInteractive limits c fault
  | .script path =>
    let (c, e) := runScript limits path (file path) c
    (c, e.brokenOffBy fault)
  | .explain e => (c.write usage, e)

/-- The calls that are open while an action begins, where nothing handles that there are too
    many. -/
def Stack.beginning (k : Stack) (file : String → File) : Action → Nat
  | .interactive => k.setup
  | .script path => k.opening (file path)
  | .explain _ => 0

/-- What an action has written where it has begun. -/
def Action.begun (c : Console) : Action → Console
  | .interactive => c.write banner
  | .script _ | .explain _ => c

/-- Take the settings into account: a proposed limit may be noted or end the command
    (`limitSetting`). -/
def Environment.settle (e : Environment) (c : Console) : Except Escape Console :=
  match e.limitSetting with
  | .refused f => .error (@Escape.limitOutOfRange f)
  | .ignored note => .ok (c.writeError note)
  | .accepted _ => .ok c

/-- Whether the limit that is set is reached while the action `a` begins. -/
def Environment.reaches (e : Environment) (file : String → File) (a : Action) : Bool :=
  match e.limitSetting with
  | .accepted (some limit) => limit < e.stack.beginning file a
  | _ => false

/-- The input in lines that can be read. An input that is broken off by bytes that are no text gives
    whole lines only. -/
def Invocation.readable (i : Invocation) : List Char :=
  let text := Text.unifyLineEnds i.input
  if i.inputFault.isSome then Text.wholeLines text else text

/-- The console with which the command begins. -/
def Invocation.start (i : Invocation) : Console :=
  .start i.environment.tracing i.readable (if i.inputFault.isSome then .interrupts else i.inputEnd)

/-- Take the action that the arguments ask for, unless the limit that is set is reached while it
    begins (`Environment.reaches`). -/
def Invocation.act (limits : Limits) (i : Invocation) (c : Console) : Console × Ending :=
  let action := Action.ofArguments i.arguments
  if i.environment.reaches i.file action then
    (action.begun c, .escaped (@Escape.limitOutOfRange .reached))
  else action.run limits i.file c i.inputFault

/-- Carry out the command. The settings come before anything else, and one that is refused ends
    it. -/
def Invocation.run (limits : Limits) (i : Invocation) : Outcome :=
  let (c, ending) : Console × Ending :=
    match i.environment.settle i.start with
    | .error e => (i.start, .escaped e)
    | .ok c => i.act limits c
  { ending, output := c.machine.output, errors := c.errors }

end Scripting.CommandLine
