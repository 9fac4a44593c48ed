import Scripting.CommandLine.Settings
import Scripting.Program.Written
import Scripting.Session

set_option autoImplicit false

/-! # The console of a run

What the command line has written so far, beside the machine whose output goes to the same place
(`Console`): the error stream, with messages, and with a trace of what is read and called if one is
asked for. How a run of the command line ends is an `Ending`. -/

namespace Scripting.CommandLine

/-- A `machine`, whose output is the standard output, and the text of the error stream, `errors`. -/
structure Console where
  machine : Machine
  errors : String

namespace Console

/-- A console without text. Calls are recorded if a trace is asked for by `tracing`. -/
def start (tracing : Bool) (input : List Char) (inputEnd : InputEnd) : Console :=
  let journal := if tracing then some "" else none
  { machine := { Machine.fresh input with inputEnd, journal }, errors := "" }

/-- Whether a trace is kept. -/
def tracing (c : Console) : Bool :=
  c.machine.journal.isSome

/-- Write `text` to the standard output. -/
def write (c : Console) (text : String) : Console :=
  { c with machine := { c.machine with output := c.machine.output ++ text } }

/-- Write `line` and a line end to the error stream. -/
def writeError (c : Console) (line : String) : Console :=
  { c with errors := c.errors ++ line ++ "\n" }

/-- Write `line` to the error stream if a trace is kept. -/
def trace (c : Console) (line : String) : Console :=
  if c.tracing then c.writeError line else c

/-- Move the recorded calls from the `journal` of the machine to the error stream. -/
def flushJournal (c : Console) : Console :=
  match c.machine.journal with
  | none => c
  | some journal =>
    { machine := { c.machine with journal := some "" }, errors := c.errors ++ journal }

/-- Run `p` in the outermost scope, and tell whether it was stopped. -/
def run (c : Console) (limits : Limits) (p : Program) : Console × Option Stop :=
  match p.run limits Machine.globals c.machine with
  | .ok _ machine => (flushJournal { c with machine }, none)
  | .error stop machine => (flushJournal { c with machine }, some stop)

end Console

/-! ## Lines of the error stream -/

/-- The note that the program `p` was read from `file`. -/
def readNote (file : String) (p : Program) : String :=
  s!"SprigParser: parsed {p.length} top-level statements from {file}"

/-- The message of a run that was nested too deeply. -/
def fatalMessage : String := "Fatal: stack exhausted (recursion too deep)"

/-- The lines of a trace that list the `tokens` and the tree of `p`. -/
def dump (tokens : List Token) (p : Program) : List String :=
  let list := "[" ++ String.intercalate ", " (tokens.map Token.written) ++ "]"
  ["\nTokens:\n", list, "\nAST:\n"] ++ p.map Stmt.written ++ [" "]

/-! ## Endings -/

/-- An error of the surroundings that the command line does not handle. -/
inductive Escape where
  /-- A script or the input is no text. -/
  | undecodable (f : Text.Utf8Fault)
  | limitOutOfRange {f : LimitFault}
  | interrupted
  | misplaced (m : Misplaced)
  deriving DecidableEq

/-- The message of an error that is not handled. -/
def Escape.message : Escape → String
  | .undecodable f => f.message
  | @limitOutOfRange f => f.message
  | .interrupted => ""
  | .misplaced m => m.message

/-- How a run of the command line ends: with a status, with an error that nothing handles, or not at
    all, where a loop keeps it from ending. -/
inductive Ending where
  | status (code : UInt32)
  | escaped (e : Escape)
  | unfinished
  deriving DecidableEq

/-- All went well. -/
def success : Ending := .status 0

/-- The program, or the call of the command line, is at fault. -/
def failure : Ending := .status 1

/-- The run was nested too deeply. -/
def fatal : Ending := .status 2

end Scripting.CommandLine
