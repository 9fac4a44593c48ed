import Scripting.Evaluation
import Scripting.Grammar.Statement

set_option autoImplicit false

/-! # Sessions

A session runs one source text after the other on one machine by `interpret`, so that each finds
what those before it have declared. A text that is no program changes nothing. A program that stops
midway has done what stands before the place where it stopped. -/

namespace Scripting

/-- How far reading and running may go: levels of nesting in a program (`nesting`), levels of
    evaluation inside one another (`depth`), and rounds of one loop (`rounds`). -/
structure Limits where
  nesting : Nat
  depth : Nat
  rounds : Nat
  deriving DecidableEq, Repr

/-- The limits that are kept where no others are asked for. They leave room for some thousand nested
    calls with long expressions in each, and for more rounds than a loop can take in practice. -/
def Limits.standard : Limits :=
  { nesting := 7500, depth := 15000, rounds := Nat.pow 2 62 }

/-- The stop of a run that was to execute a text which is refused. -/
def Refusal.stop : Refusal → Stop
  | .fault f => .fault f
  | .tooDeep => .exhausted

/-- Run the statements of a program in the scope `scope`. No signal of theirs has a meaning outside
    a loop and a function. -/
def Program.run (limits : Limits) (scope : Nat) : Program → Run Unit
  | [] => return ()
  | s :: rest => do
    let _ ← s.execute limits.rounds limits.depth scope
    Program.run limits scope rest

/-- Run the text `source` in the outermost scope, if it is a program. -/
def interpret (limits : Limits) (source : String) : Run Unit :=
  match Program.ofSource limits.nesting source with
  | .error refusal => throw refusal.stop
  | .ok (_, p) => p.run limits Machine.globals

end Scripting
