import Scripting.File
import Scripting.Text.Integer

set_option autoImplicit false

/-! # Settings

Two variables of the environment change how the command line works: `debugVariable` asks for a trace
of what is read and called, `limitVariable` proposes a limit on recursion. A proposed limit that is
no positive integer is set aside with a note. One that is out of range is an error of the caller
(`LimitFault`): the host has no room for the number, or the limit leaves the host no room for the
command. -/

namespace Scripting.CommandLine

/-- The stack of the host under a call of the command, in calls that are open at once. What the host
    makes of a limit depends on it. -/
structure Stack where
  /-- Where the settings are taken into account. -/
  depth : Nat := 0
  /-- While a script is opened and read, by what is found at its path. -/
  opening : File → Nat := fun _ => 0
  /-- While an interactive session is set up. -/
  setup : Nat := 0

/-- The two variables, as far as they are set, and the stack. -/
structure Environment where
  debug : Option String
  recursionLimit : Option String
  stack : Stack := {}

/-- The name of the variable that asks for a trace. -/
def debugVariable : String := "SPRIGDEBUG"

/-- The name of the variable that proposes a limit. -/
def limitVariable : String := "SPRIG_RECURSION_LIMIT"

/-- Whether a trace is asked for: `debug` is set to anything but the empty text. -/
def Environment.tracing (e : Environment) : Bool :=
  e.debug.any (· ≠ "")

/-! ## Limits -/

/-- The largest limit that can be set. -/
def greatestLimit : Int := 2147483647

/-- What is wrong with a limit that is out of range. -/
inductive LimitFault where
  /-- The host has no room for the number. -/
  | tooLarge
  /-- More calls are open already where the limit is to be set. -/
  | tooLow (limit : Int) (depth : Nat)
  /-- The limit is set, and reached where nothing handles it. -/
  | reached
  deriving DecidableEq

/-- The words of the host for a limit that is out of range. -/
def LimitFault.message : LimitFault → String
  | .tooLarge => "Python int too large to convert to C int"
  | .tooLow limit depth =>
    s!"cannot set the recursion limit to {limit} at the recursion depth {depth}: " ++
      "the limit is too low"
  | .reached => "maximum recursion depth exceeded"

/-- What becomes of a proposed limit. -/
inductive LimitSetting where
  /-- There is nothing to note. The limit is set, if one is proposed. -/
  | accepted (limit : Option Int)
  /-- The limit is set aside with a note. -/
  | ignored (note : String)
  /-- The limit is out of range. -/
  | refused (f : LimitFault)
  deriving DecidableEq

/-- Judge the proposed limit `text` where `depth` calls are open. An empty text proposes nothing. -/
def judgeLimit (depth : Nat) (text : Option String) : LimitSetting :=
  match text with
  | none => .accepted none
  | some s =>
    if s = "" then .accepted none
    else
      let note := s!"Ignoring invalid {limitVariable} '{s}'"
      match Text.integer? s.toList with
      | none => .ignored note
      | some n =>
        if greatestLimit < n ∨ n < -greatestLimit - 1 then .refused .tooLarge
        else if n < 1 then .ignored note
        else if n ≤ depth then .refused (.tooLow n depth)
        else .accepted (some n)

/-- What becomes of the limit that `recursionLimit` proposes. -/
def Environment.limitSetting (e : Environment) : LimitSetting :=
  judgeLimit e.stack.depth e.recursionLimit

end Scripting.CommandLine
