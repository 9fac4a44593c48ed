import Scripting.CommandLine.Interactive
import Scripting.Proofs.Text.Typed

set_option autoImplicit false

/-! # Steps of a session

A step of a session, `Interactive.step`, asks for a line and takes it in. What it leads to is told
here by the lines of the stream that the session reads. -/

namespace Scripting.CommandLine

/-- The console `c` after a line has been asked for behind those `gathered`, and taken from the
    input. -/
def Console.ask (c : Console) (gathered : List String) : Console :=
  { c with machine :=
    { c.machine with
      output := c.machine.output ++ prompt gathered
      input := (Text.takeLine c.machine.input).2 } }

namespace Interactive

variable {limits : Limits} {s : Interactive} {line : List Char} {more : List (List Char)}

theorem lines_ask (h : Text.lines s.console.machine.input = line :: more)
    (gathered : List String) :
    Text.lines (s.console.ask gathered).machine.input = more := by
  have hne : s.console.machine.input ≠ [] := by
    intro hnil
    simp [hnil, Text.lines] at h
  rw [Text.lines_of_ne_nil hne] at h
  exact (List.cons.inj h).2

/-- A `step` with a `line` that is there. -/
theorem step_of_line (h : Text.lines s.console.machine.input = line :: more) :
    s.step limits =
      if s.gathered.isEmpty && leaves line then .ended (s.console.ask s.gathered) success
      else takeTyped limits (String.ofList line :: s.gathered) (s.console.ask s.gathered) := by
  have hne : s.console.machine.input ≠ [] := by
    intro hnil
    simp [hnil, Text.lines] at h
  rw [Text.lines_of_ne_nil hne] at h
  obtain ⟨rfl, -⟩ := List.cons.inj h
  have htaken : (Text.takeLine s.console.machine.input).1 ≠ [] :=
    fun hnil => hne (Text.takeLine_fst_eq_nil_iff.1 hnil)
  unfold step
  simp only [Console.write, Console.ask]
  cases htake : Text.takeLine s.console.machine.input with
  | mk taken rest =>
    rw [htake] at htaken
    cases taken with
    | nil => exact absurd rfl htaken
    | cons c taken => rfl

/-- A `step` where the input is at its end. -/
theorem step_of_end (h : Text.lines s.console.machine.input = []) :
    s.step limits = match s.console.machine.inputEnd with
      | .closed => .ended ((s.console.write (prompt s.gathered)).write "\n") success
      | .interrupts => .interrupted (s.console.write (prompt s.gathered)) := by
  have hnil := Text.lines_eq_nil_iff.1 h
  cases hend : s.console.machine.inputEnd with
  | closed => simp [step, Console.write, Text.takeLine, hnil, hend]
  | interrupts => simp [step, Console.write, Text.takeLine, hnil, hend]

/-! ## Several steps -/

/-- The given number of steps of the session `s`, or those up to its end. -/
def steps (limits : Limits) (s : Interactive) : Nat → Step
  | 0 => .next s
  | n + 1 => match s.steps limits n with
    | .next s => s.step limits
    | ended => ended

/-- The `steps` of a session are its first one and those of what it leads to. -/
theorem steps_succ (limits : Limits) (s : Interactive) (n : Nat) :
    s.steps limits (n + 1) = match s.step limits with
      | .next s => s.steps limits n
      | ended => ended := by
  induction n with
  | zero =>
    simp only [steps]
    cases s.step limits <;> rfl
  | succ n ih =>
    rw [steps, ih]
    cases s.step limits <;> rfl

end Interactive

end Scripting.CommandLine
