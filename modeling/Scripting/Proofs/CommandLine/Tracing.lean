import Scripting.Proofs.CommandLine.Parallel
import Scripting.Proofs.CommandLine.Room

set_option autoImplicit false

/-! # Traces change nothing

A trace is written to the error stream and read by nothing. A run with a trace does what the run
without one does, `Console.Traced`, calls being recorded on its machine beside; all that is written
for the trace stands between the messages that are written in any case. Where room is used up the
two may differ, as a trace takes some too, so runs that end there are left out. -/

namespace Scripting

/-! ## Messages -/

/-- The messages `ms` one after the other, each with the end of its line. -/
def messages (ms : List String) : String :=
  String.join (ms.map (· ++ "\n"))

@[simp] theorem messages_nil : messages [] = "" := rfl

theorem messages_append (ms ms' : List String) :
    messages (ms ++ ms') = messages ms ++ messages ms' := by
  simp [messages, String.join_append]

/-! ## Machines that record calls -/

/-- Whether the machine `m'` differs from `m`, which records no calls, in what it records at
    most. -/
structure Machine.Recorded (m m' : Machine) : Prop where
  same : m' = { m with journal := m'.journal }
  none : m.journal = .none
  entries : ∀ text ∈ m'.journal, ∃ ms, text = messages ms

/-- A run beside itself on a machine that records calls. -/
def Simulation.recording : Simulation where
  toCorrespondence := .placing id
  state := Machine.Recorded
  stop e e' := e' = e
  number := id
  known _ _ := True
  visible _ := True
  own _ := True

namespace Simulation

theorem recording_values {n : Nat} {v v' : Value} : recording.Values n v v' ↔ v' = v :=
  ⟨fun h => by simpa [recording] using h.eq, fun h => ⟨trivial, by simp [h, recording]⟩⟩

theorem recording_lawful : recording.Lawful where
  known_mono _ _ := trivial
  known_of_type _ _ := trivial
  number_inj _ _ h := h
  own_visible := id
  literal h _ := recording_values.2 h
  fault := by
    rintro cause w p _ - rfl
    rfl
  stop _ := rfl
  get := by
    intro m m' i name _ _ h _ _
    rw [h.same]
    cases m.scopes.get? i name with
    | none => exact .none
    | some v => exact .some (recording_values.2 rfl)
  assign := by
    intro m m' i v v' h _ hv name
    obtain rfl := recording_values.1 hv
    rw [h.same]
    cases m.scopes.assign? i name v' with
    | none => exact .none
    | some t => exact .some ⟨rfl, h.none, h.entries⟩
  define := by
    intro m m' i v v' h _ hv name
    obtain rfl := recording_values.1 hv
    rw [h.same]
    exact ⟨rfl, h.none, h.entries⟩
  child := by
    intro m m' i h _
    rw [h.same]
    exact ⟨rfl, trivial, rfl, h.none, h.entries⟩
  keep := by
    intro m m' f f' h hf
    obtain rfl : f' = f := by simpa using hf.eq_placed (Correspondence.placing_places id)
    rw [h.same]
    exact ⟨⟨rfl, h.none, h.entries⟩, recording_values.2 rfl⟩
  function := by
    intro m m' id name h _
    rw [h.same]
    exact ⟨rfl, rfl, Stmt.corresponds_self (fun _ => rfl) (fun _ _ => rfl) _, rfl, trivial⟩
  write := by
    intro m m' h text
    rw [h.same]
    exact ⟨rfl, h.none, h.entries⟩
  read := by
    intro m m' h _
    rw [h.same]
    exact .inl ⟨rfl, rfl, fun rest => ⟨rfl, h.none, h.entries⟩⟩
  record := by
    intro m m' p p' h hp entry hentry
    obtain rfl : p' = p := hp
    refine ⟨?_, by rw [h.none]; rfl, fun text htext => ?_⟩
    · rw [h.same, h.none]
    · obtain ⟨before, hbefore, rfl⟩ := Option.map_eq_some_iff.1 htext
      obtain ⟨ms, rfl⟩ := h.entries before hbefore
      obtain ⟨line, hline⟩ := hentry p'
      exact ⟨ms ++ [line], by simp [messages, hline]⟩

end Simulation

/-- The program `p` runs alike whether or not calls are recorded. -/
theorem Program.run_recorded (limits : Limits) (p : Program) {m m' : Machine}
    (h : m.Recorded m') :
    ((p.run limits Machine.globals).leaves m).Recorded ((p.run limits Machine.globals).leaves m') ∧
      (p.run limits Machine.globals).stop? m' = (p.run limits Machine.globals).stop? m := by
  have hp : p.Corresponds Simulation.recording.toCorrespondence p :=
    List.forall₂_same.2 fun s _ => s.corresponds_self (fun _ => rfl) fun _ _ => rfl
  have hrelates : Simulation.recording.Relates 0 Simulation.Any
      (p.run limits Machine.globals) (p.run limits Machine.globals) :=
    run_relates Simulation.recording_lawful limits trivial hp
  obtain ⟨hstate, hstop⟩ := (hrelates h (Nat.zero_le _)).leaves fun _ _ => id
  exact ⟨hstate, Stop.eq_of_rel hstop⟩

namespace CommandLine

/-! ## Consoles with a trace -/

/-- Whether the messages of `text` stand in `text'` too, in the same order. -/
def Interspersed (text text' : String) : Prop :=
  ∃ ms ms', ms.Sublist ms' ∧ text = messages ms ∧ text' = messages ms'

namespace Interspersed

variable {text text' : String}

theorem append (h : Interspersed text text') {ms ms' : List String} (hms : ms.Sublist ms') :
    Interspersed (text ++ messages ms) (text' ++ messages ms') := by
  obtain ⟨before, before', hbefore, rfl, rfl⟩ := h
  exact ⟨before ++ ms, before' ++ ms', hbefore.append hms, (messages_append _ _).symm,
    (messages_append _ _).symm⟩

/-- A further message, `line`, on both sides. -/
theorem both (h : Interspersed text text') (line : String) :
    Interspersed (text ++ line ++ "\n") (text' ++ line ++ "\n") := by
  have hboth := h.append (List.Sublist.refl [line])
  simpa [messages, String.append_assoc] using hboth

/-- Further messages `ms` on the second side alone. -/
theorem more (h : Interspersed text text') (ms : List String) :
    Interspersed text (text' ++ messages ms) := by
  have hmore := h.append (List.nil_sublist ms)
  rwa [messages_nil, String.append_empty] at hmore

end Interspersed

/-- Whether the console `c'` differs from `c`, which keeps no trace, in its trace at most. -/
structure Console.Traced (c c' : Console) : Prop where
  machine : c.machine.Recorded c'.machine
  errors : Interspersed c.errors c'.errors

namespace Console.Traced

variable {c c' : Console}

theorem trace (h : c.Traced c') (line : String) : (c.trace line).Traced (c'.trace line) := by
  have hquiet : c.trace line = c := by
    simp [Console.trace, Console.tracing, h.machine.none]
  rw [hquiet]
  unfold Console.trace
  split
  · refine ⟨h.machine, ?_⟩
    have hmore := h.errors.more [line]
    simpa [Console.writeError, messages, String.append_assoc] using hmore
  · exact h

/-- What is recorded of calls is moved to the error stream by `flushJournal`. -/
theorem flushJournal (h : c.Traced c') : c.flushJournal.Traced c'.flushJournal := by
  have hquiet : c.flushJournal = c := by
    simp [Console.flushJournal, h.machine.none]
  rw [hquiet]
  unfold Console.flushJournal
  cases hjournal : c'.machine.journal with
  | none => exact h
  | some text =>
    obtain ⟨ms, rfl⟩ := h.machine.entries text hjournal
    refine ⟨⟨?_, h.machine.none, ?_⟩, h.errors.more ms⟩
    · rw [h.machine.same]
    · intro text' htext'
      cases htext'
      exact ⟨[], rfl⟩

theorem parallel : Console.Parallel Console.Traced where
  write h text := by
    refine ⟨⟨?_, h.machine.none, h.machine.entries⟩, h.errors⟩
    rw [Console.write, h.machine.same]
    rfl
  writeError h line := ⟨h.machine, h.errors.both line⟩
  trace := trace
  input h := by
    rw [h.machine.same]
    exact ⟨rfl, rfl⟩
  take h rest := by
    refine ⟨⟨?_, h.machine.none, h.machine.entries⟩, h.errors⟩
    rw [h.machine.same]
  run := by
    intro c c' h limits p
    obtain ⟨hmachine, hstop⟩ := Program.run_recorded limits p h.machine
    rw [Console.run_eq, Console.run_eq]
    exact ⟨flushJournal ⟨hmachine, h.errors⟩, hstop⟩

theorem start (tracing : Bool) (input : List Char) (inputEnd : InputEnd) :
    (Console.start false input inputEnd).Traced (Console.start tracing input inputEnd) := by
  refine ⟨⟨by cases tracing <;> rfl, rfl, fun text htext => ?_⟩, ⟨[], [], .slnil, rfl, rfl⟩⟩
  cases tracing with
  | false => cases htext
  | true =>
    cases htext
    exact ⟨[], rfl⟩

end Console.Traced

/-! ## The command with a trace -/

namespace Invocation

/-- The call `i` with the variable that asks for a trace set to the text `debug`, or not set. -/
def withDebug (i : Invocation) (debug : Option String) : Invocation :=
  { i with environment := { i.environment with debug } }

/-- Within the same `limits` the command ends alike with a trace and without. -/
theorem leaves_withDebug (limits : Limits) (i : Invocation) (debug : String) :
    EndAlike Console.Traced ((i.withDebug none).leaves limits)
      ((i.withDebug (some debug)).leaves limits) := by
  have hstart : (i.withDebug none).start.Traced (i.withDebug (some debug)).start :=
    Console.Traced.start _ _ _
  -- neither the settings nor the action that is taken hang on the variable
  have hsetting (debug : Option String) :
      (i.withDebug debug).environment.limitSetting = i.environment.limitSetting := rfl
  have hact (debug : Option String) : (i.withDebug debug).act limits = i.act limits := rfl
  unfold leaves Environment.settle
  rw [hsetting, hsetting, hact, hact]
  cases i.environment.limitSetting with
  | refused f => exact ⟨hstart, rfl⟩
  | ignored note =>
    exact Console.Traced.parallel.act (Console.Traced.parallel.writeError hstart note) limits i
  | accepted limit => exact Console.Traced.parallel.act hstart limits i

/-- A trace changes nothing about the command but what it adds to the error stream. Whatever text
    `debug` the variable is set to, the command ends in the same way as without it, the standard
    output is the same, and the messages of the error stream are all there, in their order. The two
    runs may have different room, `limits` and `limits'`, if neither uses it up. -/
theorem run_withDebug (i : Invocation) (debug : String) {limits limits' : Limits}
    (hrounds : limits'.rounds = limits.rounds)
    (hroom : ((i.withDebug none).run limits).ending ≠ fatal)
    (hroom' : ((i.withDebug (some debug)).run limits').ending ≠ fatal) :
    let quiet := (i.withDebug none).run limits
    let traced := (i.withDebug (some debug)).run limits'
    traced.ending = quiet.ending ∧ traced.output = quiet.output ∧
      Interspersed quiet.errors traced.errors := by
  intro quiet traced
  -- both runs are compared within room enough for either
  have hwider := leaves_of_within (limits.within_both_left limits') hroom
  have hwider' := leaves_of_within (Limits.within_both_right hrounds) hroom'
  obtain ⟨htraced, hending⟩ := i.leaves_withDebug (limits.both limits') debug
  rw [hwider, hwider'] at htraced hending
  refine ⟨hending, ?_, htraced.errors⟩
  show ((i.withDebug (some debug)).leaves limits').1.machine.output =
    ((i.withDebug none).leaves limits).1.machine.output
  rw [htraced.machine.same]

/-- A script that fails behind a call. -/
def failing : Invocation where
  arguments := ["a.sprig"]
  file _ := .bytes "fn f(x) \x7b print x; \x7d f(nil); -nil;".toUTF8
  input := []
  inputEnd := .closed
  environment := { debug := none, recursionLimit := none }

theorem failing_ending (limits : Limits) (debug : Option String) :
    ((failing.withDebug debug).run limits).ending =
      ((interpret limits "fn f(x) \x7b print x; \x7d f(nil); -nil;").stop?
        (failing.withDebug debug).start.machine).elim success Stop.ending := by
  have htext : (failing.file "a.sprig").HasText "fn f(x) \x7b print x; \x7d f(nil); -nil;" :=
    ⟨_, rfl, by cbv⟩
  have haction : Action.ofArguments ["a.sprig"] = .script "a.sprig" := by simp [Action.ofArguments]
  have hleaves := leaves_of_hasText (i := failing.withDebug debug) limits rfl haction rfl htext
  rw [← (runSource_spec _ "a.sprig" _ _).2, run_eq, hleaves]
  exact Ending.brokenOffBy_none _

theorem run_withDebug_of_failing :
    let quiet := (failing.withDebug none).run ⟨4, 12, 4⟩
    let traced := (failing.withDebug (some "1")).run ⟨5, 16, 4⟩
    quiet.ending = failure ∧ traced.ending = failure ∧ traced.output = quiet.output ∧
      Interspersed quiet.errors traced.errors := by
  have hquiet : ((failing.withDebug none).run ⟨4, 12, 4⟩).ending = failure := by
    rw [failing_ending]
    cbv
  have htraced : ((failing.withDebug (some "1")).run ⟨5, 16, 4⟩).ending = failure := by
    rw [failing_ending]
    cbv
  have hroom : ((failing.withDebug none).run ⟨4, 12, 4⟩).ending ≠ fatal := by
    rw [hquiet]
    decide
  have hroom' : ((failing.withDebug (some "1")).run ⟨5, 16, 4⟩).ending ≠ fatal := by
    rw [htraced]
    decide
  exact ⟨hquiet, htraced, (run_withDebug failing "1" (by rfl) hroom hroom').2⟩

end Invocation

end CommandLine

end Scripting
