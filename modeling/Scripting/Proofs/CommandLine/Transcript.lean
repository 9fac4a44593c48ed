import Scripting.CommandLine.Script
import Scripting.Proofs.CommandLine.Asking
import Scripting.Proofs.Session.WithoutInput

set_option autoImplicit false

/-! # Transcripts of sessions

What a session makes of its lines is told here without running anything, by `turns`, which puts the
lines together on its own; what the programs of the turns do, one after the other, is told without a
session, by `Plays`. A session whose programs ask for no input and raise no fault
(`Interactive.Quiet`) is then shown to do just this, and to show the texts behind its prompts
(`Interactive.shows_of_quiet`). -/

namespace Scripting.CommandLine

/-! ## Turns -/

/-- A line that a session asks for: the `prompt` that asks for it, and the text that it completes to
    a program, its `source`, if it completes one. -/
structure Turn where
  prompt : String
  source : Option String

/-- Whether `line` is one of the two words with which a session is left. -/
def isParting (line : List Char) : Bool :=
  Text.trim line == "exit".toList || Text.trim line == "quit".toList

/-- The turns of a session that is given lines, as long as no program takes lines for itself.
    `typed` holds the lines of the program that is being typed, in the order in which they were. The
    last turn finds no line, or one that leaves, or one that is nested too deeply to be read. -/
def turns (nesting : Nat) (typed : List String) : List (List Char) → List Turn
  | [] => [⟨prompt typed, none⟩]
  | line :: more =>
    if typed.isEmpty && isParting line then [⟨prompt typed, none⟩]
    else
      let lines := typed ++ [String.ofList line]
      let source := String.intercalate "\n" lines
      match Program.ofSource nesting source with
      | .ok _ => ⟨prompt typed, some source⟩ :: turns nesting [] more
      | .error .tooDeep => [⟨prompt typed, none⟩]
      | .error (.fault f) =>
        ⟨prompt typed, none⟩ :: turns nesting (if f.isAtEnd then lines else []) more

theorem leaves_eq_isParting (line : List Char) : leaves line = isParting line := by
  have hword (word : String) : (String.ofList (Text.trim line) == word) =
      (Text.trim line == word.toList) := by
    rw [Bool.eq_iff_iff, beq_iff_eq, beq_iff_eq, ← String.toList_inj, String.toList_ofList]
  rw [leaves, isParting, List.contains_cons, List.contains_cons, List.contains_nil, Bool.or_false,
    hword, hword]

/-- The gathered lines and one more are the text of all of them in the order in which they were
    typed. -/
theorem sourceOf_cons (line : String) (gathered : List String) :
    sourceOf (line :: gathered) = String.intercalate "\n" (gathered.reverse ++ [line]) := by
  rw [sourceOf, List.reverse_cons]

theorem prompt_reverse (gathered : List String) : prompt gathered.reverse = prompt gathered := by
  simp [prompt]

theorem length_turns_le (nesting : Nat) (typed : List String) (lines : List (List Char)) :
    (turns nesting typed lines).length ≤ lines.length + 1 := by
  induction lines generalizing typed with
  | nil => simp [turns]
  | cons line more ih =>
    unfold turns
    split
    · simp
    dsimp only
    split
    · exact Nat.succ_le_succ (ih [])
    · simp
    · exact Nat.succ_le_succ (ih _)

/-- The texts that the turns `ts` complete: the accepted ones. -/
def sources (ts : List Turn) : List String :=
  ts.filterMap Turn.source

/-- What a session shows: behind each `prompt` the text that its turn writes. -/
def shown : List Turn → List String → String
  | t :: ts, text :: texts => t.prompt ++ text ++ shown ts texts
  | _, _ => ""

/-- Whether the programs of some turns, run on a machine one after the other, each once, write the
    texts, one for each turn, and leave a machine. At most the last of them is stopped, by the
    `Stop` that is told. None of them asks for input or raises a fault. -/
inductive Plays (limits : Limits) :
    Machine → List Turn → List String → Machine → Option Stop → Prop
  | done (m : Machine) : Plays limits m [] [] m none
  | idle {m m' : Machine} {ts : List Turn} {texts : List String} {stop : Option Stop}
    (prompt : String) (h : Plays limits m ts texts m' stop) :
    Plays limits m (⟨prompt, none⟩ :: ts) ("" :: texts) m' stop
  | runs {m m' : Machine} {ts : List Turn} {texts : List String} {stop : Option Stop}
    {source text : String} {tokens : List Token} {p : Program} (prompt : String)
    (hread : Program.ofSource limits.nesting source = .ok (tokens, p))
    (hquiet : p.Quiet limits m)
    (hstop : (p.run limits Machine.globals).stop? m = none)
    (htext : m.Writes text ((p.run limits Machine.globals).leaves m))
    (h : Plays limits ((p.run limits Machine.globals).leaves m) ts texts m' stop) :
    Plays limits m (⟨prompt, some source⟩ :: ts) (text :: texts) m' stop
  | stops {m : Machine} {source text : String} {tokens : List Token} {p : Program} {e : Stop}
    (prompt : String)
    (hread : Program.ofSource limits.nesting source = .ok (tokens, p))
    (hquiet : p.Quiet limits m)
    (hstop : (p.run limits Machine.globals).stop? m = some e)
    (htext : m.Writes text ((p.run limits Machine.globals).leaves m)) :
    Plays limits m [⟨prompt, some source⟩] [text] ((p.run limits Machine.globals).leaves m) (some e)

/-! ## Sessions that keep quiet -/

/-- The program that the next step of the session `s` runs, if it runs one. -/
def Interactive.program? (limits : Limits) (s : Interactive) : Option Program :=
  match Text.lines s.console.machine.input with
  | [] => none
  | line :: _ =>
    if s.gathered.isEmpty && isParting line then none
    else
      let lines := s.gathered.reverse ++ [String.ofList line]
      match Program.ofSource limits.nesting (String.intercalate "\n" lines) with
      | .ok (_, p) => some p
      | .error _ => none

/-- Whether no program that the session `s` runs asks for input or raises a fault. -/
def Interactive.Quiet (limits : Limits) (s : Interactive) : Prop :=
  ∀ n s' p, s.steps limits n = .next s' → s'.program? limits = some p →
    p.Quiet limits (s'.console.ask s'.gathered).machine

namespace Interactive

variable {limits : Limits} {s s' : Interactive}

theorem quiet_iff : s.Quiet limits ↔
    (∀ p, s.program? limits = some p →
      p.Quiet limits (s.console.ask s.gathered).machine) ∧
    ∀ s', s.step limits = .next s' → s'.Quiet limits := by
  constructor
  · intro h
    refine ⟨fun p => h 0 s p rfl, fun s' hstep n s'' p hsteps => h (n + 1) s'' p ?_⟩
    rw [steps_succ, hstep]
    exact hsteps
  · rintro ⟨hfirst, hrest⟩ n s'' p hsteps hp
    cases n with
    | zero =>
      cases hsteps
      exact hfirst p hp
    | succ n =>
      rw [steps_succ] at hsteps
      cases hstep : s.step limits with
      | next s' =>
        rw [hstep] at hsteps
        exact hrest s' hstep n s'' p hsteps hp
      | ended c e => rw [hstep] at hsteps; cases hsteps
      | interrupted c => rw [hstep] at hsteps; cases hsteps

end Interactive

/-! ## Consoles -/

namespace Console

variable {limits : Limits} {c : Console} {p : Program}

theorem machine_trace (c : Console) (line : String) : (c.trace line).machine = c.machine := by
  unfold trace
  split <;> rfl

theorem machine_foldl_trace (c : Console) (lines : List String) :
    (lines.foldl trace c).machine = c.machine := by
  induction lines generalizing c with
  | nil => rfl
  | cons line lines ih => rw [List.foldl_cons, ih, machine_trace]

/-- A run on the console `c` is one on its `machine`. -/
theorem run_eq (limits : Limits) (c : Console) (p : Program) :
    c.run limits p =
      (flushJournal { c with machine := (p.run limits Machine.globals).leaves c.machine },
        (p.run limits Machine.globals).stop? c.machine) := by
  unfold run Run.leaves Run.stop?
  have hrun : p.run limits Machine.globals c.machine =
    (p.run limits Machine.globals).run c.machine := rfl
  rw [hrun]
  cases (p.run limits Machine.globals).run c.machine <;> rfl

theorem sameState_flushJournal (c : Console) : c.machine.SameState c.flushJournal.machine := by
  unfold flushJournal
  split <;> exact ⟨rfl, rfl⟩

theorem writes_flushJournal (c : Console) : c.machine.Writes "" c.flushJournal.machine := by
  unfold flushJournal
  split <;> exact ⟨by simp, rfl, rfl⟩

end Console

/-- A `Quiet` program does on the console `c` what it does on a machine in the same state. -/
theorem Console.run_of_quiet {limits : Limits} {p q : Program} {m : Machine} {c : Console}
    (hpq : p.unplaced = q.unplaced) (hm : m.SameState c.machine) (hquiet : p.Quiet limits m) :
    ((p.run limits Machine.globals).leaves m).SameState (c.run limits q).1.machine ∧
      (∃ text, m.Writes text ((p.run limits Machine.globals).leaves m) ∧
        c.machine.Writes text (c.run limits q).1.machine) ∧
      Option.Rel Stop.SameButPlace ((p.run limits Machine.globals).stop? m) (c.run limits q).2 := by
  have halike := Program.run_doAlike hpq hm hquiet.asks
  obtain ⟨text, hwrites, hwrites'⟩ := halike.writes
  rw [run_eq]
  let left : Console := { c with machine := (q.run limits Machine.globals).leaves c.machine }
  have hflushed := hwrites'.trans left.writes_flushJournal
  rw [String.append_empty] at hflushed
  exact ⟨halike.state.trans left.sameState_flushJournal, ⟨text, hwrites, hflushed⟩, halike.stop⟩

/-! ## What a session does -/

/-- The console that a session leaves when it ends with a step. -/
def Step.left? : Step → Option Console
  | .next _ => none
  | .ended c _ => some c
  | .interrupted c => some (breakOff c none).1

/-- What a `Quiet` program does when `runTyped` runs it: the session goes on behind it unless it is
    stopped. -/
theorem runTyped_of_quiet {limits : Limits} {p : Program} {m : Machine} {c : Console}
    (source : String) (hm : m.SameState c.machine) (hquiet : p.Quiet limits m) :
    ∃ text c', m.Writes text ((p.run limits Machine.globals).leaves m) ∧
      c.machine.Writes text c'.machine ∧
      ((p.run limits Machine.globals).leaves m).SameState c'.machine ∧
      (((p.run limits Machine.globals).stop? m = none ∧
          runTyped limits source p c = .next ⟨c', []⟩) ∨
        ∃ e, (p.run limits Machine.globals).stop? m = some e ∧
          (runTyped limits source p c).left? = some c') := by
  have hc : (c.trace (readNote typedName p)).machine = c.machine := c.machine_trace _
  have hrun := Console.run_of_quiet (p := p) (q := p) rfl (hc ▸ hm) hquiet
  rw [hc] at hrun
  have hbroken := Program.stop?_ne_interrupted hquiet.asks
  have hraises := hquiet.raises
  unfold runTyped
  revert hrun hbroken hraises
  generalize (c.trace (readNote typedName p)).run limits p = result
  obtain ⟨c', stop⟩ := result
  generalize (p.run limits Machine.globals).stop? m = stop'
  rintro ⟨hstate, ⟨text, hwrites, hwrites'⟩, hstop⟩ hbroken hraises
  cases hstop with
  | none => exact ⟨text, c', hwrites, hwrites', hstate, .inl ⟨rfl, rfl⟩⟩
  | some he =>
    cases he with
    | fault cause place place' => exact absurd rfl (hraises _)
    | other _ hother =>
      rename_i e
      cases e with
      | fault f => exact absurd rfl (hother f)
      | interrupted => exact absurd rfl hbroken
      | misplaced misplaced => exact ⟨text, c', hwrites, hwrites', hstate, .inr ⟨_, rfl, rfl⟩⟩
      | exhausted =>
        exact ⟨text, c'.writeError fatalMessage, hwrites, hwrites', hstate, .inr ⟨_, rfl, rfl⟩⟩
      | unfinished => exact ⟨text, c', hwrites, hwrites', hstate, .inr ⟨_, rfl, rfl⟩⟩

section Taking

variable {limits : Limits} {gathered : List String}

theorem takeTyped_of_ok {tokens : List Token} {p : Program} {c : Console}
    (h : Program.ofSource limits.nesting (sourceOf gathered) = .ok (tokens, p)) :
    takeTyped limits gathered c = runTyped limits (sourceOf gathered) p c := by
  simp only [takeTyped, h]

theorem takeTyped_of_tooDeep {c : Console}
    (h : Program.ofSource limits.nesting (sourceOf gathered) = .error .tooDeep) :
    takeTyped limits gathered c = .ended (c.writeError fatalMessage) fatal := by
  simp only [takeTyped, h]

/-- Lines that are refused are kept or dropped by `takeTyped`, and nothing is run. -/
theorem takeTyped_of_fault {f : Fault}
    (h : Program.ofSource limits.nesting (sourceOf gathered) = .error (.fault f)) (c : Console) :
    ∃ c', c'.machine = c.machine ∧
      takeTyped limits gathered c = .next ⟨c', if f.isAtEnd then gathered else []⟩ := by
  simp only [takeTyped, h]
  split
  · exact ⟨c, rfl, rfl⟩
  · exact ⟨reportTyped c (sourceOf gathered) f, rfl, rfl⟩

end Taking

/-- What a session shows at its end. -/
def closings : List String :=
  ["", "\n", "\nInterrupted.\n"]

/-- Whether the turns `ts` are played on the machine `m`, all of them or those up to a stop, and
    lead to the console `c` with what is shown of them behind the output `before`. -/
def Shows (limits : Limits) (m : Machine) (ts : List Turn) (before : String) (c : Console) : Prop :=
  ∃ taken texts m' stop, taken <+: ts ∧ (stop = none → taken = ts) ∧
    Plays limits m taken texts m' stop ∧ m'.SameState c.machine ∧
    ∃ closing ∈ closings, c.machine.output = before ++ shown taken texts ++ closing

namespace Shows

variable {limits : Limits} {m : Machine} {ts : List Turn} {before prompt source text : String}
  {c : Console} {tokens : List Token} {p : Program}

theorem last {closing : String} (hclosing : closing ∈ closings) (hm : m.SameState c.machine)
    (hout : c.machine.output = before ++ prompt ++ closing) :
    Shows limits m [⟨prompt, none⟩] before c :=
  ⟨_, [""], m, none, List.prefix_rfl, fun _ => rfl, .idle _ (.done m), hm, closing, hclosing,
    by simp [hout, shown]⟩

theorem idle (h : Shows limits m ts (before ++ prompt) c) :
    Shows limits m (⟨prompt, none⟩ :: ts) before c := by
  obtain ⟨taken, texts, m', stop, htaken, hall, hplays, hm', closing, hclosing, hout⟩ := h
  exact ⟨_, "" :: texts, m', stop, List.cons_prefix_cons.2 ⟨rfl, htaken⟩,
    fun hstop => by rw [hall hstop], .idle _ hplays, hm', closing, hclosing,
    by simp [hout, shown, String.append_assoc]⟩

theorem runs (hread : Program.ofSource limits.nesting source = .ok (tokens, p))
    (hquiet : p.Quiet limits m) (hstop : (p.run limits Machine.globals).stop? m = none)
    (htext : m.Writes text ((p.run limits Machine.globals).leaves m))
    (h : Shows limits ((p.run limits Machine.globals).leaves m) ts (before ++ prompt ++ text) c) :
    Shows limits m (⟨prompt, some source⟩ :: ts) before c := by
  obtain ⟨taken, texts, m', stop, htaken, hall, hplays, hm', closing, hclosing, hout⟩ := h
  exact ⟨_, text :: texts, m', stop, List.cons_prefix_cons.2 ⟨rfl, htaken⟩,
    fun hstop => by rw [hall hstop], .runs _ hread hquiet hstop htext hplays, hm', closing,
    hclosing, by simp [hout, shown, String.append_assoc]⟩

theorem stops {e : Stop} (hread : Program.ofSource limits.nesting source = .ok (tokens, p))
    (hquiet : p.Quiet limits m) (hstop : (p.run limits Machine.globals).stop? m = some e)
    (htext : m.Writes text ((p.run limits Machine.globals).leaves m))
    (hm : ((p.run limits Machine.globals).leaves m).SameState c.machine)
    (hout : c.machine.output = before ++ prompt ++ text) :
    Shows limits m (⟨prompt, some source⟩ :: ts) before c :=
  ⟨_, [text], _, some e, List.cons_prefix_cons.2 ⟨rfl, List.nil_prefix⟩,
    fun hnone => absurd hnone (Option.some_ne_none e), .stops _ hread hquiet hstop htext, hm, "",
    by simp [closings], by simp [hout, shown, String.append_assoc]⟩

end Shows

namespace Interactive

variable {limits : Limits} {s : Interactive} {m : Machine}

/-- The turns of a session from the state `s` on. -/
def turns (limits : Limits) (s : Interactive) : List Turn :=
  CommandLine.turns limits.nesting s.gathered.reverse (Text.lines s.console.machine.input)

/-- What a step of the session `s` can do. -/
inductive StepCase (limits : Limits) (s : Interactive) : Prop
  /-- The session ends, with what it shows behind the prompt. -/
  | last (c : Console) (closing : String) (hclosing : closing ∈ closings)
    (hturns : s.turns limits = [⟨prompt s.gathered, none⟩])
    (hprogram : s.program? limits = none) (hstep : (s.step limits).left? = some c)
    (hstate : s.console.machine.SameState c.machine)
    (hout : c.machine.output = s.console.machine.output ++ prompt s.gathered ++ closing)
  /-- A line is taken in and kept or dropped. -/
  | idle (s' : Interactive) (hturns : s.turns limits = ⟨prompt s.gathered, none⟩ :: s'.turns limits)
    (hprogram : s.program? limits = none) (hstep : s.step limits = .next s')
    (hmachine : s'.console.machine = (s.console.ask s.gathered).machine)
  /-- A line is taken in, and the program that it completes is run. -/
  | runs (source : String) (tokens : List Token) (p : Program)
    (hturns : s.turns limits = ⟨prompt s.gathered, some source⟩ ::
      turns limits ⟨s.console.ask s.gathered, []⟩)
    (hread : Program.ofSource limits.nesting source = .ok (tokens, p))
    (hprogram : s.program? limits = some p)
    (hstep : s.step limits = runTyped limits source p (s.console.ask s.gathered))

theorem stepCase (limits : Limits) (s : Interactive) : s.StepCase limits := by
  cases hlines : Text.lines s.console.machine.input with
  | nil =>
    have hturns : s.turns limits = [⟨prompt s.gathered, none⟩] := by
      rw [turns, hlines, CommandLine.turns, prompt_reverse]
    have hprogram : s.program? limits = none := by
      rw [program?, hlines]
    have hstep : s.step limits = _ := step_of_end hlines
    cases hend : s.console.machine.inputEnd with
    | closed =>
      exact .last ((s.console.write (prompt s.gathered)).write "\n") "\n" (by simp [closings])
        hturns hprogram (by rw [hstep, hend]; rfl) ⟨rfl, rfl⟩ rfl
    | interrupts =>
      exact .last (breakOff (s.console.write (prompt s.gathered)) none).1 "\nInterrupted.\n"
        (by simp [closings]) hturns hprogram (by rw [hstep, hend]; rfl) ⟨rfl, rfl⟩ rfl
  | cons line more =>
    have hmore : Text.lines (s.console.ask s.gathered).machine.input = more :=
      lines_ask hlines s.gathered
    have hstep : s.step limits = _ := step_of_line hlines
    have hturns : s.turns limits =
        CommandLine.turns limits.nesting s.gathered.reverse (line :: more) := by
      rw [turns, hlines]
    have hprogram := program?.eq_def limits s
    rw [hlines] at hprogram
    dsimp only at hprogram
    unfold CommandLine.turns at hturns
    -- the session gathers its lines last first, and the turns take them as they are typed
    simp only [prompt_reverse, List.isEmpty_reverse, ← leaves_eq_isParting, ← sourceOf_cons]
      at hturns hprogram
    cases hleaves : s.gathered.isEmpty && leaves line with
    | true =>
      rw [hleaves, if_pos rfl] at hstep hturns hprogram
      exact .last (s.console.ask s.gathered) "" (by simp [closings]) hturns hprogram
        (by rw [hstep]; rfl) ⟨rfl, rfl⟩ String.append_empty.symm
    | false =>
      rw [hleaves, if_neg Bool.false_ne_true] at hstep hturns hprogram
      cases hread : Program.ofSource limits.nesting
          (sourceOf (String.ofList line :: s.gathered)) with
      | ok r =>
        obtain ⟨tokens, p⟩ := r
        rw [takeTyped_of_ok hread] at hstep
        rw [hread] at hturns hprogram
        subst hmore
        exact .runs _ tokens p hturns hread hprogram hstep
      | error e =>
        rw [hread] at hturns hprogram
        cases e with
        | tooDeep =>
          rw [takeTyped_of_tooDeep hread] at hstep
          exact .last ((s.console.ask s.gathered).writeError fatalMessage) "" (by simp [closings])
            hturns hprogram (by rw [hstep]; rfl) ⟨rfl, rfl⟩ String.append_empty.symm
        | fault f =>
          obtain ⟨c', hc', hnext⟩ := takeTyped_of_fault hread (s.console.ask s.gathered)
          refine .idle _ ?_ hprogram (hstep.trans hnext) hc'
          rw [hturns, turns, hc', hmore, apply_ite List.reverse, List.reverse_cons,
            List.reverse_nil]

theorem turns_ne_nil (s : Interactive) : s.turns limits ≠ [] := by
  cases s.stepCase limits <;> simp_all

theorem runWithin_of_next {s' : Interactive} (h : s.step limits = .next s') (rounds : Nat) :
    s.runWithin limits (rounds + 1) = s'.runWithin limits rounds := by
  rw [runWithin, h]

theorem runWithin_of_left {c : Console} (h : (s.step limits).left? = some c) (rounds : Nat) :
    (s.runWithin limits (rounds + 1)).1 = c := by
  rw [runWithin]
  cases hstep : s.step limits <;> rw [hstep] at h <;> cases h <;> rfl

/-- A `Quiet` session plays its `turns`. There are as many turns to come as steps, at most. -/
theorem shows_of_quiet (hquiet : s.Quiet limits) (hm : m.SameState s.console.machine) {rounds : Nat}
    (hrounds : (s.turns limits).length ≤ rounds) :
    Shows limits m (s.turns limits) s.console.machine.output (s.runWithin limits rounds).1 := by
  induction rounds generalizing s m with
  | zero => exact absurd (List.length_eq_zero_iff.1 (Nat.le_zero.1 hrounds)) s.turns_ne_nil
  | succ rounds ih =>
    obtain ⟨hfirst, hrest⟩ := quiet_iff.1 hquiet
    cases s.stepCase limits with
    | last c closing hclosing hturns _ hstep hstate hout =>
      rw [hturns, runWithin_of_left hstep]
      exact .last hclosing (hm.trans hstate) hout
    | idle s' hturns _ hstep hmachine =>
      rw [hturns, List.length_cons, Nat.add_le_add_iff_right] at hrounds
      have hstate : m.SameState s'.console.machine := by
        rw [hmachine]
        exact hm.trans ⟨rfl, rfl⟩
      have hlast := ih (hrest s' hstep) hstate hrounds
      rw [hmachine] at hlast
      rw [hturns, runWithin_of_next hstep]
      exact .idle hlast
    | runs source tokens p hturns hread hprogram hstep =>
      have hasked : m.SameState (s.console.ask s.gathered).machine := hm.trans ⟨rfl, rfl⟩
      have hquietp : p.Quiet limits m := (hfirst p hprogram).of_sameState rfl hasked
      obtain ⟨text, c', htext, htext', hstate, ⟨hnone, hrun⟩ | ⟨e, hsome, hrun⟩⟩ :=
        runTyped_of_quiet source hasked hquietp
      · have hnext := hstep.trans hrun
        have hleft : turns limits ⟨s.console.ask s.gathered, []⟩ = turns limits ⟨c', []⟩ := by
          simp only [turns, htext'.input]
        rw [hturns, hleft, List.length_cons, Nat.add_le_add_iff_right] at hrounds
        have hlast := ih (hrest _ hnext) hstate hrounds
        rw [htext'.output] at hlast
        rw [hturns, hleft, runWithin_of_next hnext]
        exact .runs hread hquietp hnone htext hlast
      · rw [← hstep] at hrun
        rw [hturns, runWithin_of_left hrun]
        exact .stops hread hquietp hsome htext hstate htext'.output

/-- Whether the programs of the turns ask for no input and raise no fault, by running them one after
    the other. -/
def quietTurns (limits : Limits) : Machine → List Turn → Bool
  | _, [] => true
  | m, ⟨_, none⟩ :: ts => quietTurns limits m ts
  | m, ⟨_, some source⟩ :: ts =>
    match Program.ofSource limits.nesting source with
    | .error _ => false
    | .ok (_, p) =>
      p.isQuiet limits m && quietTurns limits ((p.run limits Machine.globals).leaves m) ts

/-- A session is `Quiet` if its `turns` are. -/
theorem quiet_of_quietTurns {ts : List Turn} (hts : s.turns limits = ts)
    (h : quietTurns limits m ts = true) (hm : m.SameState s.console.machine) : s.Quiet limits := by
  induction ts generalizing s m with
  | nil => exact absurd hts s.turns_ne_nil
  | cons t ts ih =>
    refine quiet_iff.2 ?_
    cases s.stepCase limits with
    | last c closing hclosing hturns hprogram hstep =>
      refine ⟨fun p hp => ?_, fun s' hnext => ?_⟩
      · cases hprogram.symm.trans hp
      · rw [hnext] at hstep
        cases hstep
    | idle s' hturns hprogram hstep hmachine =>
      obtain ⟨rfl, hrest⟩ := List.cons.inj (hturns.symm.trans hts)
      refine ⟨fun p hp => ?_, fun s'' hnext => ?_⟩
      · cases hprogram.symm.trans hp
      · cases hstep.symm.trans hnext
        refine ih hrest h ?_
        rw [hmachine]
        exact hm.trans ⟨rfl, rfl⟩
    | runs source tokens p hturns hread hprogram hstep =>
      obtain ⟨rfl, hrest⟩ := List.cons.inj (hturns.symm.trans hts)
      simp only [quietTurns, hread, Bool.and_eq_true] at h
      have hasked : m.SameState (s.console.ask s.gathered).machine := hm.trans ⟨rfl, rfl⟩
      have hquiet := Program.isQuiet_iff.1 h.1
      refine ⟨fun q hq => ?_, fun s'' hnext => ?_⟩
      · cases hprogram.symm.trans hq
        exact hquiet.of_sameState rfl hasked.symm
      · obtain ⟨text, c', htext, htext', hstate, ⟨-, hrun⟩ | ⟨e, -, hrun⟩⟩ :=
          runTyped_of_quiet source hasked hquiet
        · cases (hstep.trans hrun).symm.trans hnext
          refine ih ?_ h.2 hstate
          rw [← hrest]
          simp only [turns, htext'.input]
        · rw [← hstep, hnext] at hrun
          cases hrun

end Interactive

end Scripting.CommandLine
