import Scripting.Proofs.CommandLine.Tracing

set_option autoImplicit false

/-! # Scripts

The status of a script tells how far it came: it is `success` if its text is a program that runs to
its end, `fatal` if the room is used up, and `failure` if anything else is wrong. What is wrong is
reported behind the trace, and a text that is no program touches neither of the other two streams.
Only bytes that are no text go unreported: the host has to tell of them. All this is
`ScriptEnds`. -/

namespace Scripting

/-! ## What stops a text -/

namespace CommandLine

/-! ## Reports -/

section Scripts

variable {limits : Limits} {path : String} {file : File} {c c' c'' : Console}

/-- Whether the error stream of `c'` goes on behind that of `c` with a trace at most. -/
def Console.TracesTo (c c' : Console) : Prop :=
  ∃ text, c'.errors = c.errors ++ text ∧
    (c.machine.journal = none → text = "" ∧ c'.machine.journal = none)

/-- Whether `message` is the last on the error stream of `c'`, behind a trace at most. -/
def Console.Reports (c c' : Console) (message : String) : Prop :=
  ∃ left, c.TracesTo left ∧ c' = left.writeError message

namespace Console.TracesTo

theorem refl (c : Console) : c.TracesTo c :=
  ⟨"", String.append_empty.symm, fun hquiet => ⟨rfl, hquiet⟩⟩

theorem trans (h : c.TracesTo c') (h' : c'.TracesTo c'') : c.TracesTo c'' := by
  obtain ⟨text, herrors, hquiet⟩ := h
  obtain ⟨text', herrors', hquiet'⟩ := h'
  refine ⟨text ++ text', by rw [herrors', herrors, String.append_assoc], fun hnone => ?_⟩
  obtain ⟨rfl, hnone'⟩ := hquiet hnone
  obtain ⟨rfl, hnone''⟩ := hquiet' hnone'
  exact ⟨rfl, hnone''⟩

theorem trace (c : Console) (line : String) : c.TracesTo (c.trace line) := by
  unfold Console.trace
  split
  · rename_i htracing
    refine ⟨line ++ "\n", String.append_assoc, fun hnone => ?_⟩
    simp [Console.tracing, hnone] at htracing
  · exact refl c

theorem foldl_trace (c : Console) (lines : List String) :
    c.TracesTo (lines.foldl Console.trace c) := by
  induction lines generalizing c with
  | nil => exact refl c
  | cons line lines ih => exact (trace c line).trans (ih _)

theorem run (c : Console) (limits : Limits) (p : Program) : c.TracesTo (c.run limits p).1 := by
  rw [Console.run_eq]
  unfold Console.flushJournal
  cases hjournal : ((p.run limits Machine.globals).leaves c.machine).journal with
  | none => exact ⟨"", String.append_empty.symm, fun _ => ⟨rfl, hjournal⟩⟩
  | some text =>
    refine ⟨text, rfl, fun hnone => ?_⟩
    -- a machine that records nothing at first does not begin to in the run
    have hsame : c.machine.Recorded c.machine := ⟨rfl, hnone, by simp [hnone]⟩
    have hleft := (p.run_recorded limits hsame).1.none
    rw [hjournal] at hleft
    cases hleft

end Console.TracesTo

/-- What is wrong with a script, in the words in which it is reported: it cannot be read, or a fault
    is found in it or comes up in its run. -/
inductive ScriptFault (limits : Limits) (path : String) (file : File) (m : Machine) : String → Prop
  | unreadable {why : Unreadable} (h : file.read = .error why) :
    ScriptFault limits path file m s!"Error reading file: {why.messageFor path}"
  | fault {source : String} {f : Fault} (htext : file.HasText source)
    (h : (interpret limits source).stop? m = some (.fault f)) :
    ScriptFault limits path file m ((Report.mk f (some path)).excerpt source)

namespace ScriptFault

variable {m : Machine} {message : String}

end ScriptFault

/-- How a script in `file` ends, and what it leaves on the console with which it began: the
    `result`. -/
structure ScriptEnds (limits : Limits) (path : String) (file : File) (c : Console)
    (result : Console × Ending) : Prop where
  /-- The script succeeds just if it has a text, which is a program, which runs to its end. -/
  success_iff : result.2 = success ↔ ∃ source tokens p, file.HasText source ∧
    Program.ofSource limits.nesting source = .ok (tokens, p) ∧
    (p.run limits Machine.globals).stop? c.machine = none
  /-- It fails just if something is wrong with it. -/
  failure_iff : result.2 = failure ↔ ∃ message, ScriptFault limits path file c.machine message
  /-- It ends fatally just if its room is used up, while it is read or while it is run. -/
  fatal_iff : result.2 = fatal ↔ ∃ source, file.HasText source ∧
    (interpret limits source).stop? c.machine = some .exhausted
  /-- What is wrong is reported, and so is the want of room. -/
  reported : ∀ message, ScriptFault limits path file c.machine message →
    c.Reports result.1 message
  exhausted : result.2 = fatal → c.Reports result.1 fatalMessage
  /-- Bytes that are no text are left to the host, and nothing is reported. -/
  undecodable : ∀ content f, file.read = .ok content → textOfBytes content = .error f →
    result = (c, .escaped (.undecodable f))
  /-- Unless the text is a program, nothing is written to the standard output, and nothing is taken
      from the input. -/
  untouched : (∀ source tokens p, file.HasText source →
    Program.ofSource limits.nesting source ≠ .ok (tokens, p)) → result.1.machine = c.machine

namespace ScriptEnds

/-- What is told by the statuses does not hang on `fault`, which broke the input off. -/
theorem brokenOffBy {result : Console × Ending} (h : ScriptEnds limits path file c result)
    (fault : Option Text.Utf8Fault) :
    ScriptEnds limits path file c (result.1, result.2.brokenOffBy fault) where
  success_iff := Ending.brokenOffBy_eq_status_iff.trans h.success_iff
  failure_iff := Ending.brokenOffBy_eq_status_iff.trans h.failure_iff
  fatal_iff := Ending.brokenOffBy_eq_status_iff.trans h.fatal_iff
  reported := h.reported
  exhausted hfatal := h.exhausted (Ending.brokenOffBy_eq_status_iff.1 hfatal)
  undecodable := by
    intro content f hread hdecode
    rw [h.undecodable content f hread hdecode]
    cases fault <;> rfl
  untouched := h.untouched

end ScriptEnds

end Scripts

end CommandLine

end Scripting
