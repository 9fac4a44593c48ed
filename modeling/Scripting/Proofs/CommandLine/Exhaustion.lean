import Scripting.Proofs.CommandLine.Transcript
import Scripting.Proofs.Session.Exhaustion

set_option autoImplicit false

/-! # Exhaustion is fatal, and nothing else

A script ends with the status `fatal` if its room is used up, in reading or in running it, and with
no other status then. A program finds nothing out about its room before: with more room it does the
same, or goes on behind the output that it has written. -/

namespace Scripting

/-- How a script ends that is stopped. -/
def Stop.ending : Stop → CommandLine.Ending
  | .fault _ => CommandLine.failure
  | .exhausted => CommandLine.fatal
  | .interrupted => .escaped .interrupted
  | .misplaced m => .escaped (.misplaced m)
  | .unfinished => .unfinished

/-- The status `fatal` is that of `Stop.exhausted`. -/
theorem Stop.elim_ending_eq_fatal_iff {stop : Option Stop} :
    stop.elim CommandLine.success Stop.ending = CommandLine.fatal ↔ stop = some .exhausted := by
  cases stop with
  | none => simp [CommandLine.success, CommandLine.fatal]
  | some e =>
    cases e <;> simp [Stop.ending, CommandLine.failure, CommandLine.fatal]

namespace CommandLine

variable {limits wider : Limits}

/-- A script writes what its text writes, and ends as its text is stopped: what `runSource` does is
    told by `interpret`. -/
theorem runSource_spec (limits : Limits) (name source : String) (c : Console) :
    (runSource limits name source c).1.machine.output =
        ((interpret limits source).leaves c.machine).output ∧
      (runSource limits name source c).2 =
        ((interpret limits source).stop? c.machine).elim success Stop.ending := by
  unfold runSource
  cases hread : Program.ofSource limits.nesting source with
  | error refusal =>
    have hinterpret : interpret limits source = throw refusal.stop := by rw [interpret, hread]
    rw [hinterpret]
    cases refusal <;> exact ⟨rfl, rfl⟩
  | ok r =>
    obtain ⟨tokens, p⟩ := r
    have hmachine := c.machine_foldl_trace (readNote name p :: dump tokens p)
    rw [interpret_of_ofSource hread]
    simp only [Console.run_eq, hmachine]
    generalize (readNote name p :: dump tokens p).foldl Console.trace c = traced
    let left : Console := { traced with machine := (p.run limits Machine.globals).leaves c.machine }
    have hwrites : left.flushJournal.machine.output = left.machine.output := by
      simpa using left.writes_flushJournal.output
    cases (p.run limits Machine.globals).stop? c.machine with
    | none => exact ⟨hwrites, rfl⟩
    | some e => cases e <;> exact ⟨hwrites, rfl⟩

/-- Texts that are read alike and run alike are alike for `runSource`. -/
theorem runSource_congr {source : String} {c : Console}
    (hread : Program.ofSource wider.nesting source = Program.ofSource limits.nesting source)
    (hrun : (interpret wider source).run c.machine = (interpret limits source).run c.machine)
    (name : String) : runSource wider name source c = runSource limits name source c := by
  unfold runSource
  rw [hread]
  cases hlimits : Program.ofSource limits.nesting source with
  | error refusal => cases refusal <;> rfl
  | ok r =>
    obtain ⟨tokens, p⟩ := r
    have hmachine := c.machine_foldl_trace (readNote name p :: dump tokens p)
    rw [interpret_of_ofSource hlimits, interpret_of_ofSource (hread.trans hlimits)] at hrun
    simp only [Console.run_eq, hmachine, Run.leaves, Run.stop?, hrun]

end CommandLine

/-! ## Runs with more room -/

/-- A text that does not use up its `nesting` is read alike with more. -/
theorem Limits.Within.ofSource_eq {limits wider : Limits} (h : limits.Within wider)
    {source : String} {m : Machine} (hstop : (interpret limits source).stop? m ≠ some .exhausted) :
    Program.ofSource wider.nesting source = Program.ofSource limits.nesting source := by
  refine Program.ofSource_of_le h.nesting fun hcut => hstop (Run.stop?_eq_some.2 ⟨m, ?_⟩)
  rw [interpret, hcut]
  rfl

/-- Nothing observes the exhaustion of a run. A text that does not exhaust its room does just the
    same with `wider` limits, on any machine and as a script too; nor does it matter what there is
    beyond the room, instead of a stop. A text that exhausts its room is stopped for that and for
    nothing else, is `fatal` as a script, and has written a beginning of what it writes with more
    room. -/
theorem exhaustion_unobserved {limits wider : Limits} (h : limits.Within wider) (source : String)
    (m : Machine) :
    ((interpret limits source).stop? m ≠ some .exhausted →
      (interpret wider source).run m = (interpret limits source).run m ∧
      (∀ parts beyond,
        (interpretUpTo parts beyond limits source).run m = (interpret limits source).run m) ∧
      ∀ name errors, CommandLine.runSource wider name source ⟨m, errors⟩ =
        CommandLine.runSource limits name source ⟨m, errors⟩) ∧
    ((interpret limits source).leaves m).Continues ((interpret wider source).leaves m) ∧
    ∀ name errors,
      ((CommandLine.runSource limits name source ⟨m, errors⟩).2 = CommandLine.fatal ↔
        (interpret limits source).stop? m = some .exhausted) ∧
      (CommandLine.runSource limits name source ⟨m, errors⟩).1.machine.Continues
        (CommandLine.runSource wider name source ⟨m, errors⟩).1.machine := by
  have hleaves := (h.cutShort source).leaves m
  refine ⟨fun hstop => ⟨?_, fun parts beyond => ?_, fun name errors => ?_⟩, hleaves, ?_⟩
  · exact (h.cutShort source).run_eq_of_stop hstop
  · have hbeyond : beyond.Advances fun _ _ => True := ⟨fun _ _ => .any _, fun _ _ => .any _⟩
    exact (interpret_cutShort parts hbeyond limits source).run_eq_of_stop hstop
  · exact CommandLine.runSource_congr (h.ofSource_eq hstop)
      ((h.cutShort source).run_eq_of_stop hstop) name
  · intro name errors
    obtain ⟨houtput, hending⟩ := CommandLine.runSource_spec limits name source ⟨m, errors⟩
    obtain ⟨houtput', -⟩ := CommandLine.runSource_spec wider name source ⟨m, errors⟩
    refine ⟨by rw [hending, Stop.elim_ending_eq_fatal_iff], ?_⟩
    rw [Machine.Continues, houtput, houtput']
    exact hleaves

/-- A call that finds no room for what its body prints, and finds it with a wider bound. -/
theorem exhaustion_unobserved_of_call :
    let m := Machine.fresh []
    let narrow := interpret ⟨4, 3, 4⟩ "print nil; fn f() \x7bprint f;\x7d f();"
    let wide := interpret ⟨5, 6, 4⟩ "print nil; fn f() \x7bprint f;\x7d f();"
    Limits.Within ⟨4, 3, 4⟩ ⟨5, 6, 4⟩ ∧ narrow.stop? m = some .exhausted ∧ wide.stop? m = none ∧
      (narrow.leaves m).Continues (wide.leaves m) := by
  have hwithin : Limits.Within ⟨4, 3, 4⟩ ⟨5, 6, 4⟩ := ⟨by decide, by decide, rfl⟩
  have hexhausted : (interpret ⟨4, 3, 4⟩ "print nil; fn f() \x7bprint f;\x7d f();").stop?
      (Machine.fresh []) = some .exhausted := by cbv
  have hnone : (interpret ⟨5, 6, 4⟩ "print nil; fn f() \x7bprint f;\x7d f();").stop?
      (Machine.fresh []) = none := by cbv
  exact ⟨hwithin, hexhausted, hnone, (exhaustion_unobserved hwithin _ _).2.1⟩

end Scripting
