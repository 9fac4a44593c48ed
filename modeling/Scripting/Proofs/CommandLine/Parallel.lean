import Scripting.CommandLine.Command
import Scripting.Proofs.CommandLine.Transcript
import Scripting.Proofs.Text.Files

set_option autoImplicit false

/-! # Two consoles side by side

The command line does few things with a console: it writes to one of the two streams, notes
something for a trace, takes a line of the input, and runs a program. A relation between consoles
that each of these keeps is `Console.Parallel`. It is kept by whatever action the command takes, and
both sides end in the same way (`Console.Parallel.action`). -/

namespace Scripting

namespace CommandLine

/-- What the relation `R` between consoles has to keep to. -/
structure Console.Parallel (R : Console → Console → Prop) : Prop where
  write : ∀ {c c' : Console}, R c c' → ∀ text, R (c.write text) (c'.write text)
  writeError : ∀ {c c' : Console}, R c c' → ∀ line, R (c.writeError line) (c'.writeError line)
  trace : ∀ {c c' : Console}, R c c' → ∀ line, R (c.trace line) (c'.trace line)
  input : ∀ {c c' : Console}, R c c' →
    c'.machine.input = c.machine.input ∧ c'.machine.inputEnd = c.machine.inputEnd
  take : ∀ {c c' : Console}, R c c' → ∀ rest,
    R { c with machine := { c.machine with input := rest } }
      { c' with machine := { c'.machine with input := rest } }
  run : ∀ {c c' : Console}, R c c' → ∀ (limits : Limits) (p : Program),
    R (c.run limits p).1 (c'.run limits p).1 ∧ (c'.run limits p).2 = (c.run limits p).2

/-- Whether two steps lead to the same, with consoles that `R` relates. -/
inductive Step.Rel (R : Console → Console → Prop) : Step → Step → Prop
  | next {c c' : Console} (h : R c c') (gathered : List String) :
    Rel R (.next ⟨c, gathered⟩) (.next ⟨c', gathered⟩)
  | ended {c c' : Console} (h : R c c') (e : Ending) : Rel R (.ended c e) (.ended c' e)
  | interrupted {c c' : Console} (h : R c c') : Rel R (.interrupted c) (.interrupted c')

/-- Whether the runs `x` and `y` end in the same way, with consoles that `R` relates. -/
def EndAlike (R : Console → Console → Prop) (x y : Console × Ending) : Prop :=
  R x.1 y.1 ∧ y.2 = x.2

namespace Console.Parallel

variable {R : Console → Console → Prop} {c c' : Console} {limits : Limits}

theorem foldl_trace (hR : Parallel R) (h : R c c') (lines : List String) :
    R (lines.foldl Console.trace c) (lines.foldl Console.trace c') := by
  induction lines generalizing c c' with
  | nil => exact h
  | cons line lines ih => exact ih (hR.trace h line)

theorem ask (hR : Parallel R) (h : R c c') (gathered : List String) :
    R (c.ask gathered) (c'.ask gathered) := by
  unfold Console.ask
  rw [(hR.input h).1]
  exact hR.take (hR.write h (prompt gathered)) _

/-! ## Sessions -/

theorem runTyped (hR : Parallel R) (h : R c c') (limits : Limits) (source : String) (p : Program) :
    Step.Rel R (runTyped limits source p c) (runTyped limits source p c') := by
  obtain ⟨hrun, hstop⟩ := hR.run (hR.trace h (readNote typedName p)) limits p
  unfold CommandLine.runTyped
  revert hrun hstop
  generalize (c.trace (readNote typedName p)).run limits p = result
  generalize (c'.trace (readNote typedName p)).run limits p = result'
  obtain ⟨left, stop⟩ := result
  obtain ⟨left', stop'⟩ := result'
  rintro hleft ⟨⟩
  cases stop with
  | none => exact .next hleft []
  | some e =>
    cases e with
    | fault f => exact .next (hR.writeError hleft _) []
    | exhausted => exact .ended (hR.writeError hleft _) fatal
    | interrupted => exact .interrupted hleft
    | misplaced m => exact .ended hleft _
    | unfinished => exact .ended hleft _

theorem takeTyped (hR : Parallel R) (h : R c c') (limits : Limits) (gathered : List String) :
    Step.Rel R (takeTyped limits gathered c) (takeTyped limits gathered c') := by
  cases hread : Program.ofSource limits.nesting (sourceOf gathered) with
  | ok r =>
    rw [takeTyped_of_ok hread, takeTyped_of_ok hread]
    exact hR.runTyped h limits _ r.2
  | error e =>
    cases e with
    | tooDeep =>
      rw [takeTyped_of_tooDeep hread, takeTyped_of_tooDeep hread]
      exact .ended (hR.writeError h _) fatal
    | fault f =>
      simp only [CommandLine.takeTyped, hread]
      split
      · exact .next h gathered
      · exact .next (hR.writeError h _) []

theorem step (hR : Parallel R) (h : R c c') (limits : Limits) (gathered : List String) :
    Step.Rel R (Interactive.step limits ⟨c, gathered⟩)
      (Interactive.step limits ⟨c', gathered⟩) := by
  obtain ⟨hinput, hend⟩ := hR.input h
  cases hlines : Text.lines c.machine.input with
  | nil =>
    have hlines' : Text.lines c'.machine.input = [] := by rw [hinput, hlines]
    rw [Interactive.step_of_end (s := ⟨c, gathered⟩) hlines,
      Interactive.step_of_end (s := ⟨c', gathered⟩) hlines']
    simp only [hend]
    cases c.machine.inputEnd with
    | closed => exact .ended (hR.write (hR.write h _) _) success
    | interrupts => exact .interrupted (hR.write h _)
  | cons line more =>
    have hlines' : Text.lines c'.machine.input = line :: more := by rw [hinput, hlines]
    rw [Interactive.step_of_line (s := ⟨c, gathered⟩) hlines,
      Interactive.step_of_line (s := ⟨c', gathered⟩) hlines']
    have hasked := hR.ask h gathered
    split
    · exact .ended hasked success
    · exact hR.takeTyped hasked limits _

/-- Two sessions go on in step, by `runWithin`. -/
theorem runWithin (hR : Parallel R) (limits : Limits) (rounds : Nat) (h : R c c')
    (gathered : List String) (fault : Option Text.Utf8Fault) :
    EndAlike R (Interactive.runWithin limits rounds ⟨c, gathered⟩ fault)
      (Interactive.runWithin limits rounds ⟨c', gathered⟩ fault) := by
  induction rounds generalizing c c' gathered with
  | zero => exact ⟨h, rfl⟩
  | succ rounds ih =>
    have hstep := hR.step h limits gathered
    rw [Interactive.runWithin, Interactive.runWithin]
    revert hstep
    generalize Interactive.step limits ⟨c, gathered⟩ = step
    generalize Interactive.step limits ⟨c', gathered⟩ = step'
    intro hstep
    cases hstep with
    | next hnext gathered' => exact ih hnext gathered'
    | ended hended e => exact ⟨hended, rfl⟩
    | interrupted hbroken =>
      cases fault with
      | none => exact ⟨hR.write hbroken _, rfl⟩
      | some f => exact ⟨hbroken, rfl⟩

theorem runInteractive (hR : Parallel R) (h : R c c') (limits : Limits)
    (fault : Option Text.Utf8Fault) :
    EndAlike R (runInteractive limits c fault) (runInteractive limits c' fault) := by
  unfold CommandLine.runInteractive
  rw [(hR.input h).1]
  exact hR.runWithin limits _ (hR.write h banner) [] fault

/-! ## Scripts -/

theorem runSource (hR : Parallel R) (h : R c c') (limits : Limits) (name source : String) :
    EndAlike R (runSource limits name source c) (runSource limits name source c') := by
  unfold CommandLine.runSource
  cases Program.ofSource limits.nesting source with
  | error e =>
    cases e with
    | tooDeep => exact ⟨hR.writeError h _, rfl⟩
    | fault f => exact ⟨hR.writeError h _, rfl⟩
  | ok r =>
    obtain ⟨tokens, p⟩ := r
    obtain ⟨hrun, hstop⟩ := hR.run (hR.foldl_trace h (readNote name p :: dump tokens p)) limits p
    dsimp only
    revert hrun hstop
    generalize ((readNote name p :: dump tokens p).foldl Console.trace c).run limits p = result
    generalize ((readNote name p :: dump tokens p).foldl Console.trace c').run limits p = result'
    obtain ⟨left, stop⟩ := result
    obtain ⟨left', stop'⟩ := result'
    rintro hleft ⟨⟩
    cases stop with
    | none => exact ⟨hleft, rfl⟩
    | some e =>
      cases e with
      | fault f => exact ⟨hR.writeError hleft _, rfl⟩
      | exhausted => exact ⟨hR.writeError hleft _, rfl⟩
      | interrupted => exact ⟨hleft, rfl⟩
      | misplaced m => exact ⟨hleft, rfl⟩
      | unfinished => exact ⟨hleft, rfl⟩

theorem runScript (hR : Parallel R) (h : R c c') (limits : Limits) (path : String) (file : File) :
    EndAlike R (runScript limits path file c) (runScript limits path file c') := by
  unfold CommandLine.runScript
  cases file.read with
  | error why => exact ⟨hR.writeError h _, rfl⟩
  | ok content =>
    dsimp only
    cases textOfBytes content with
    | error f => exact ⟨h, rfl⟩
    | ok source => exact hR.runSource h limits path source

/-! ## Actions -/

/-- Whatever action `a` is taken on related consoles, it ends in the same way, and the consoles are
    still related. -/
theorem action (hR : Parallel R) (h : R c c') (limits : Limits) (file : String → File)
    (a : Action) (fault : Option Text.Utf8Fault) :
    EndAlike R (a.run limits file c fault) (a.run limits file c' fault) := by
  cases a with
  | interactive => exact hR.runInteractive h limits fault
  | script path =>
    obtain ⟨hleft, hending⟩ := hR.runScript h limits path (file path)
    exact ⟨hleft, congrArg (·.brokenOffBy fault) hending⟩
  | explain e => exact ⟨hR.write h usage, rfl⟩

/-- Where the action `a` begins, the consoles are related as well. -/
theorem begun (hR : Parallel R) (h : R c c') (a : Action) : R (a.begun c) (a.begun c') := by
  cases a with
  | interactive => exact hR.write h banner
  | script path => exact h
  | explain e => exact h

theorem act (hR : Parallel R) (h : R c c') (limits : Limits) (i : Invocation) :
    EndAlike R (i.act limits c) (i.act limits c') := by
  unfold Invocation.act
  dsimp only
  split
  · exact ⟨hR.begun h _, rfl⟩
  · exact hR.action h limits i.file _ i.inputFault

end Console.Parallel

/-! ## The command -/

namespace Invocation

/-- The console that the call `i` of the command leaves, and how it ends. -/
def leaves (limits : Limits) (i : Invocation) : Console × Ending :=
  match i.environment.settle i.start with
  | .error e => (i.start, .escaped e)
  | .ok c => i.act limits c

/-- What `run` shows of the command is what it `leaves`, but for the state of its machine. -/
theorem run_eq (limits : Limits) (i : Invocation) :
    i.run limits =
      { ending := (i.leaves limits).2
        output := (i.leaves limits).1.machine.output
        errors := (i.leaves limits).1.errors } := rfl

/-- Once the settings are accepted, an action is taken that begins within the limit that is set, as
    it does not reach it. -/
theorem leaves_of_begins {limits : Limits} {i : Invocation} {c : Console}
    (hsettle : i.environment.settle i.start = .ok c)
    (hbegins : i.environment.reaches i.file (Action.ofArguments i.arguments) = false) :
    i.leaves limits = (Action.ofArguments i.arguments).run limits i.file c i.inputFault := by
  simp only [leaves, act, hsettle, hbegins, Bool.false_eq_true, if_false]

/-- A script with a text is run as that text by `runSource`, once the settings are accepted and its
    file is opened. -/
theorem leaves_of_hasText {i : Invocation} {path source : String} {c : Console} (limits : Limits)
    (hsettle : i.environment.settle i.start = .ok c)
    (haction : Action.ofArguments i.arguments = .script path)
    (hbegins : i.environment.reaches i.file (.script path) = false)
    (htext : (i.file path).HasText source) :
    i.leaves limits = ((runSource limits path source c).1,
      (runSource limits path source c).2.brokenOffBy i.inputFault) := by
  obtain ⟨content, hread, hdecode⟩ := htext
  rw [← haction] at hbegins
  simp only [leaves_of_begins hsettle hbegins, haction, Action.run, CommandLine.runScript, hread,
    hdecode]

end Invocation

end CommandLine

end Scripting
