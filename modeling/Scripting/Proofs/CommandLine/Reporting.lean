import Scripting.Proofs.CommandLine.Transcript
import Scripting.Proofs.Session.Apart

set_option autoImplicit false

/-! # Reports of sessions

For a fault of a program, `reportTyped` quotes the text that the session is running. The node at
which the fault is raised may stand in a text that was run before: functions keep their nodes, and
can be called from any text behind the one that they stand in. The fault then points into that text,
and a line of another one is quoted. -/

namespace Scripting

/-- Excerpts of `a` and `b` for one fault are the same if the lines that they quote are. -/
theorem Report.excerpt_eq_iff {r : Report} {line : Int} (hline : r.fault.place.line = some line)
    (a b : String) : r.excerpt a = r.excerpt b ↔ sourceLine a line = sourceLine b line := by
  simp only [excerpt, hline, toString, ← String.toList_inj, String.toList_append,
    List.append_cancel_left_eq, List.append_cancel_right_eq]

namespace CommandLine

/-! ## Texts that a session runs -/

/-- A text that a session runs, its `source`: its `program`, and the `machine` on which it is
    run. -/
structure Typed where
  source : String
  program : Program
  machine : Machine

/-- Why the run of the text `t` is stopped, if it is. -/
def Typed.stop? (limits : Limits) (t : Typed) : Option Stop :=
  (t.program.run limits Machine.globals).stop? t.machine

theorem Console.machine_flushJournal (c : Console) :
    c.flushJournal.machine = { c.machine with journal := c.machine.journal.map fun _ => "" } := by
  obtain ⟨⟨_, _, _, _, _, journal⟩, _⟩ := c
  cases journal <;> rfl

/-- A session goes on behind `runTyped` with the machine that the text leaves. -/
theorem machine_of_runTyped {limits : Limits} {source : String} {p : Program} {c : Console}
    {s : Interactive} (h : runTyped limits source p c = .next s) :
    s.console.machine = { (p.run limits Machine.globals).leaves c.machine with
      journal := ((p.run limits Machine.globals).leaves c.machine).journal.map fun _ => "" } := by
  unfold runTyped at h
  rw [Console.run_eq, c.machine_trace] at h
  revert h
  cases (p.run limits Machine.globals).stop? c.machine with
  | none =>
    intro h
    cases h
    exact Console.machine_flushJournal _
  | some e =>
    cases e with
    | fault f =>
      intro h
      cases h
      exact Console.machine_flushJournal _
    | _ => exact nofun

/-- A text that `runTyped` runs is not the last one if it is not stopped. -/
theorem exists_runTyped_of_none {limits : Limits} {p : Program} {c : Console} (source : String)
    (h : (p.run limits Machine.globals).stop? c.machine = none) :
    ∃ c', runTyped limits source p c = .next ⟨c', []⟩ := by
  unfold runTyped
  rw [Console.run_eq, c.machine_trace, h]
  exact ⟨_, rfl⟩

/-- A fault of a program is reported by `reportTyped`, with an excerpt of the text that is run. -/
theorem exists_runTyped_of_fault {limits : Limits} {p : Program} {c : Console} {f : Fault}
    (source : String) (h : (p.run limits Machine.globals).stop? c.machine = some (.fault f)) :
    ∃ c', runTyped limits source p c = .next ⟨reportTyped c' source f, []⟩ := by
  unfold runTyped
  rw [Console.run_eq, c.machine_trace, h]
  exact ⟨_, rfl⟩

namespace Interactive

/-- The text that the next step of the session `s` runs, if it runs one. -/
def typed? (limits : Limits) (s : Interactive) : Option Typed := do
  let turn ← (s.turns limits).head?
  let source ← turn.source
  let program ← s.program? limits
  return { source, program, machine := (s.console.ask s.gathered).machine }

/-- The text that the session `s` runs behind `n` steps. -/
def typedAt? (limits : Limits) (s : Interactive) (n : Nat) : Option Typed :=
  match s.steps limits n with
  | .next s' => s'.typed? limits
  | _ => none

/-- The functions that the session `s` keeps behind so many steps if the nodes of its texts are
    placed elsewhere, those of the text that is run behind `i` steps by `F i`. -/
def functionsPlaced (limits : Limits) (F : Nat → Placing) (s : Interactive) : Nat → Array Function
  | 0 => s.console.machine.functions
  | n + 1 =>
    let functions := s.functionsPlaced limits F n
    match s.typedAt? limits n with
    | none => functions
    | some t => t.program.keptAmong limits (F n) functions t.machine

/-- Whether the text that the session `s` runs behind `n` steps raises a fault at a node of the text
    that it runs behind `i` steps: wherever the nodes of all texts are placed, those of each in a
    way of its own, the fault points at where the node at the position `p` is. -/
def RaisesAt (limits : Limits) (s : Interactive) (n i : Nat) (cause : Cause) (p : Position) :
    Prop :=
  ∃ t, s.typedAt? limits n = some t ∧ ∀ F : Nat → Placing, ∃ m',
    t.program.runAmong limits (F n) (s.functionsPlaced limits F n) t.machine =
      .error (.fault (.located cause (F i p))) m'

variable {limits : Limits} {s s' : Interactive} {t : Typed}

/-- A step of the session `s` runs a text, or keeps the functions. -/
inductive TypedCase (limits : Limits) (s : Interactive) : Prop
  | none (htyped : s.typed? limits = none)
    (hstep : ∀ s', s.step limits = .next s' →
      s'.console.machine.functions = s.console.machine.functions)
  | some (t : Typed) (tokens : List Token) (htyped : s.typed? limits = some t)
    (hread : Program.ofSource limits.nesting t.source = .ok (tokens, t.program))
    (hmachine : t.machine = (s.console.ask s.gathered).machine)
    (hstep : s.step limits = runTyped limits t.source t.program (s.console.ask s.gathered))

theorem typedCase (limits : Limits) (s : Interactive) : s.TypedCase limits := by
  cases s.stepCase limits with
  | last c closing hclosing hturns hprogram hstep =>
    refine .none (by simp [typed?, hturns]) fun s' hnext => ?_
    rw [hnext] at hstep
    cases hstep
  | idle s' hturns hprogram hstep hmachine =>
    refine .none (by simp [typed?, hturns]) fun s'' hnext => ?_
    cases hstep.symm.trans hnext
    rw [hmachine]
    rfl
  | runs source tokens p hturns hread hprogram hstep =>
    exact .some ⟨source, p, _⟩ tokens (by simp [typed?, hturns, hprogram]) hread rfl hstep

theorem steps_of_typedAt? {n : Nat} (h : s.typedAt? limits n = some t) :
    ∃ s' tokens, s.steps limits n = .next s' ∧
      Program.ofSource limits.nesting t.source = .ok (tokens, t.program) ∧
      t.machine = (s'.console.ask s'.gathered).machine ∧
      s'.step limits = runTyped limits t.source t.program (s'.console.ask s'.gathered) := by
  unfold typedAt? at h
  cases hsteps : s.steps limits n with
  | next s' =>
    rw [hsteps] at h
    cases s'.typedCase limits with
    | none htyped => cases htyped.symm.trans h
    | some t' tokens htyped hread hmachine hstep =>
      cases htyped.symm.trans h
      exact ⟨s', tokens, rfl, hread, hmachine, hstep⟩
  | ended c e => rw [hsteps] at h; cases h
  | interrupted c => rw [hsteps] at h; cases h

/-! ## Functions of a session -/

/-- Left in their places, the functions of `functionsPlaced` are those that the session keeps. -/
theorem functionsPlaced_id {n : Nat} (h : s.steps limits n = .next s') :
    s.functionsPlaced limits (fun _ => id) n = s'.console.machine.functions := by
  induction n generalizing s' with
  | zero =>
    cases h
    rfl
  | succ n ih =>
    rw [steps] at h
    cases hsteps : s.steps limits n with
    | next before =>
      rw [hsteps] at h
      have hbefore := ih hsteps
      rw [functionsPlaced, typedAt?, hsteps]
      dsimp only
      cases before.typedCase limits with
      | none htyped hstep => rw [htyped, hstep s' h, hbefore]
      | some t tokens htyped hread hmachine hstep =>
        have hsame : { t.machine with functions := before.console.machine.functions } =
            t.machine := by
          rw [hmachine]
          rfl
        rw [htyped, hbefore]
        dsimp only
        rw [Program.keptAmong, Program.placed_id, hsame, hmachine]
        rw [machine_of_runTyped (hstep.symm.trans h)]
    | ended c e => rw [hsteps] at h; cases h
    | interrupted c => rw [hsteps] at h; cases h

/-- The functions of a session that begins without any are made of nodes of its `texts`. -/
theorem functionsPlaced_apart (hs : s.console.machine.functions = #[]) {texts : Nat → Option String}
    {n : Nat} (htexts : ∀ i < n, ∀ t, s.typedAt? limits i = some t → texts i = some t.source)
    (F : Nat → Placing) :
    Function.AllCorrespond (.apart texts F) (s.functionsPlaced limits .apart n)
      (s.functionsPlaced limits F n) := by
  induction n with
  | zero =>
    refine ⟨rfl, fun id => ?_⟩
    simp only [functionsPlaced, hs]
    exact ⟨rfl, rfl, ⟨trivial, nofun⟩, rfl⟩
  | succ n ih =>
    have hfs := ih fun i hi => htexts i (Nat.lt_succ_of_lt hi)
    rw [functionsPlaced, functionsPlaced]
    cases htyped : s.typedAt? limits n with
    | none => exact hfs
    | some t =>
      obtain ⟨_, _, -, hread, -⟩ := steps_of_typedAt? htyped
      have hn := htexts n n.lt_succ_self t htyped
      exact Program.keptAmong_apart (Program.apart_of_ofSource hn hread F) hfs

/-! ## Faults of a session -/

/-- A fault that a session `RaisesAt` a node is raised at one node. -/
theorem RaisesAt.unique {n i j : Nat} {cause : Cause} {p q : Position}
    (h : s.RaisesAt limits n i cause p) (h' : s.RaisesAt limits n j cause q) : i = j ∧ p = q := by
  obtain ⟨t, ht, hraises⟩ := h
  obtain ⟨t', ht', hraises'⟩ := h'
  cases ht.symm.trans ht'
  obtain ⟨m, hrun⟩ := hraises .apart
  obtain ⟨m', hrun'⟩ := hraises' .apart
  rw [hrun] at hrun'
  obtain ⟨-, hplaces⟩ := Fault.located_inj (Stop.fault.inj (EStateM.Result.error.inj hrun').1)
  exact Placing.apart_inj hplaces

/-- A fault is raised at a node of a text that has been run, and points into that text. -/
theorem exists_raisesAt (hs : s.console.machine.functions = #[]) {n : Nat}
    (ht : s.typedAt? limits n = some t) {f : Fault} (hf : t.stop? limits = some (.fault f)) :
    ∃ i ≤ n, ∃ t' p, s.typedAt? limits i = some t' ∧ f.place = p.place ∧
      s.RaisesAt limits n i f.cause p ∧ f.PointsAtCause t'.source := by
  obtain ⟨s', tokens, hsteps, hread, hmachine, -⟩ := steps_of_typedAt? ht
  let texts (i : Nat) : Option String :=
    if i ≤ n then (s.typedAt? limits i).map Typed.source else none
  have htexts (i : Nat) (hi : i ≤ n) (t : Typed) (ht : s.typedAt? limits i = some t) :
      texts i = some t.source := by
    simp [texts, hi, ht]
  have hfs := functionsPlaced_apart hs fun i hi => htexts i (Nat.le_of_lt hi)
  have hp := Program.apart_of_ofSource (htexts n (Nat.le_refl n) t ht) hread
  obtain ⟨m', hrun⟩ := Run.stop?_eq_some.1 hf
  have hsame : { t.machine with functions := s.functionsPlaced limits (fun _ => id) n } =
      t.machine := by
    rw [functionsPlaced_id hsteps, hmachine]
    rfl
  have hamong : t.program.runAmong limits id (s.functionsPlaced limits (fun _ => id) n) t.machine =
      .error (.fault f) m' := by
    rw [Program.runAmong, Program.placed_id, hsame, hrun]
  obtain ⟨i, text, p, htext, hplace, hstands, hraises⟩ :=
    Program.exists_text_of_runAmong hp hfs (F := fun _ => id) hamong
  obtain ⟨hi, htext⟩ := Option.ite_none_right_eq_some.1 htext
  obtain ⟨t', ht', rfl⟩ := Option.map_eq_some_iff.1 htext
  have hplaces : f.place = p.place := congrArg Fault.place hplace
  rw [← show f = .located f.cause p from hplace] at hstands
  exact ⟨i, hi, t', p, ht', hplaces, ⟨t, ht, hraises⟩, hstands.pointsAtCause⟩

/-- A session that begins without functions reports every fault `f` of a program that it runs. The
    fault is raised at one node, of a text that has been run, this one or one before it, and points
    into that text at what it is about. What is reported is an `excerpt` of that text if and only if
    the text that is being run has the same line under the number that the fault points at. -/
theorem reports (hs : s.console.machine.functions = #[]) {n : Nat}
    (ht : s.typedAt? limits n = some t) {f : Fault} (hf : t.stop? limits = some (.fault f)) :
    (∃ c, s.steps limits (n + 1) = .next ⟨reportTyped c t.source f, []⟩) ∧
    ∃ i ≤ n, ∃ t' p, s.typedAt? limits i = some t' ∧ f.place = p.place ∧
      (∀ j q, s.RaisesAt limits n j f.cause q ↔ j = i ∧ q = p) ∧ f.PointsAtCause t'.source ∧
      ((Report.mk f (some typedName)).excerpt t.source =
          (Report.mk f (some typedName)).excerpt t'.source ↔
        Report.sourceLine t.source p.line = Report.sourceLine t'.source p.line) := by
  constructor
  · obtain ⟨s', tokens, hsteps, -, hmachine, hstep⟩ := steps_of_typedAt? ht
    rw [Typed.stop?, hmachine] at hf
    obtain ⟨c, hc⟩ := exists_runTyped_of_fault t.source hf
    exact ⟨c, by rw [steps, hsteps]; exact hstep.trans hc⟩
  · obtain ⟨i, hi, t', p, ht', hplace, hraises, hpoints⟩ := exists_raisesAt hs ht hf
    have hline : f.place.line = some p.line := by
      rw [hplace]
      rfl
    refine ⟨i, hi, t', p, ht', hplace, fun j q => ⟨fun h => h.unique hraises, ?_⟩, hpoints,
      Report.excerpt_eq_iff hline t.source t'.source⟩
    rintro ⟨rfl, rfl⟩
    exact hraises

end Interactive

/-! ## Texts in a line each -/

/-- The console behind a `line` that is a program. -/
def Console.behind (limits : Limits) (line : String) (c : Console) : Console :=
  flushJournal { c with machine := (interpret limits line).leaves (c.ask []).machine }

namespace Interactive

section Lines

variable {limits : Limits} {c : Console} {a b : String}

/-- The line `a`, which is a program, is run. If it is not stopped, the session goes on behind
    it. -/
theorem exists_typed?_of_line (ha : (Text.lines c.machine.input).head? = some a.toList)
    (hstays : leaves a.toList = false) (hread : (Program.ofSource limits.nesting a).isOk = true) :
    ∃ t, typed? limits ⟨c, []⟩ = some t ∧ t.source = a ∧
      t.stop? limits = (interpret limits a).stop? (c.ask []).machine ∧
      (t.stop? limits = none → ∃ c', step limits ⟨c, []⟩ = .next ⟨c', []⟩ ∧
        c'.machine = (c.behind limits a).machine) := by
  obtain ⟨more, hline⟩ := List.head?_eq_some_iff.1 ha
  obtain ⟨tokens, p, hp⟩ := Program.exists_of_isOk_ofSource hread
  have hparting : isParting a.toList = false := (leaves_eq_isParting _).symm.trans hstays
  have htyped : typed? limits ⟨c, []⟩ = some ⟨a, p, (c.ask []).machine⟩ := by
    simp [typed?, turns, program?, CommandLine.turns, hline, hparting, hp]
  refine ⟨_, htyped, rfl, by rw [interpret_of_ofSource hp]; rfl, fun hstop => ?_⟩
  cases typedCase limits ⟨c, []⟩ with
  | none hnone => cases hnone.symm.trans htyped
  | some t _ hsome _ _ hstep =>
    cases hsome.symm.trans htyped
    obtain ⟨c', hc'⟩ := exists_runTyped_of_none a hstop
    refine ⟨c', hstep.trans hc', ?_⟩
    rw [Console.behind, Console.machine_flushJournal, interpret_of_ofSource hp]
    exact machine_of_runTyped hc'

/-- The lines `a` and `b`, which are programs, are run one after the other. -/
theorem exists_typedAt?_of_pair (ha : (Text.lines c.machine.input).head? = some a.toList)
    (hastays : leaves a.toList = false) (haread : (Program.ofSource limits.nesting a).isOk = true)
    (hstop : (interpret limits a).stop? (c.ask []).machine = none)
    (hb : (Text.lines (c.behind limits a).machine.input).head? = some b.toList)
    (hbstays : leaves b.toList = false) (hbread : (Program.ofSource limits.nesting b).isOk = true) :
    ∃ t t', typedAt? limits ⟨c, []⟩ 0 = some t ∧ t.source = a ∧
      typedAt? limits ⟨c, []⟩ 1 = some t' ∧ t'.source = b ∧
      t'.stop? limits = (interpret limits b).stop? ((c.behind limits a).ask []).machine := by
  obtain ⟨t, ht, hsource, htstop, hnext⟩ := exists_typed?_of_line ha hastays haread
  obtain ⟨c', hstep, hc'⟩ := hnext (htstop.trans hstop)
  rw [← hc'] at hb
  obtain ⟨t', ht', hsource', htstop', -⟩ := exists_typed?_of_line hb hbstays hbread
  have hask : (c'.ask []).machine = ((c.behind limits a).ask []).machine := by
    simp only [Console.ask, hc']
  refine ⟨t, t', ht, hsource, ?_, hsource', by rw [htstop', hask]⟩
  rw [typedAt?, steps, steps]
  dsimp only
  rw [hstep]
  exact ht'

end Lines

/-- A session in which a function is declared in one line, and fails where it is called in the
    next. -/
theorem exists_typedAt?_call :
    let s : Interactive :=
      ⟨(Console.start false "fn f() \x7b return -nil; \x7d\nf();".toList .closed).write banner, []⟩
    ∃ t t', s.typedAt? ⟨4, 8, 8⟩ 0 = some t ∧ t.source = "fn f() \x7b return -nil; \x7d" ∧
      s.typedAt? ⟨4, 8, 8⟩ 1 = some t' ∧ t'.source = "f();" ∧
      t'.stop? ⟨4, 8, 8⟩ = some (.fault (.located (.typeMismatch (.negation .nil)) ⟨1, 17⟩)) := by
  have hfault : (interpret ⟨4, 8, 8⟩ "f();").stop?
      ((((Console.start false "fn f() \x7b return -nil; \x7d\nf();".toList .closed).write
        banner).behind ⟨4, 8, 8⟩ "fn f() \x7b return -nil; \x7d").ask []).machine =
      some (.fault (.located (.typeMismatch (.negation .nil)) ⟨1, 17⟩)) := by
    cbv
  rw [← hfault]
  exact exists_typedAt?_of_pair (by cbv) (by cbv) (by cbv)
    (by cbv) (by cbv) (by cbv) (by cbv)

/-- The line with the call is quoted, and not the one with the function that fails. -/
theorem reports_of_call :
    let s : Interactive :=
      ⟨(Console.start false "fn f() \x7b return -nil; \x7d\nf();".toList .closed).write banner, []⟩
    let f : Fault := .located (.typeMismatch (.negation .nil)) ⟨1, 17⟩
    s.console.machine.functions = #[] ∧
    ∃ t, s.typedAt? ⟨4, 8, 8⟩ 1 = some t ∧ t.stop? ⟨4, 8, 8⟩ = some (.fault f) ∧
    ∃ c, s.steps ⟨4, 8, 8⟩ 2 = .next ⟨reportTyped c "f();" f, []⟩ := by
  intro s f
  obtain ⟨-, t, -, -, ht, hsource, hf⟩ := exists_typedAt?_call
  obtain ⟨⟨c, hc⟩, -⟩ := reports (s := s) rfl ht hf
  exact ⟨rfl, t, ht, hf, c, hsource ▸ hc⟩

/-- A session does not always quote the text in which the node at fault stands. -/
theorem not_reports_own_text :
    ¬ ∀ (limits : Limits) (s : Interactive) (n i : Nat) (t t' : Typed) (f : Fault) (p : Position),
      s.console.machine.functions = #[] → s.typedAt? limits n = some t →
      t.stop? limits = some (.fault f) → s.typedAt? limits i = some t' →
      s.RaisesAt limits n i f.cause p →
      (Report.mk f (some typedName)).excerpt t.source =
        (Report.mk f (some typedName)).excerpt t'.source := by
  intro hquotes
  obtain ⟨t, t', ht, hsource, ht', hsource', hf⟩ := exists_typedAt?_call
  obtain ⟨i, hi, t'', p, ht'', -, hraises, hpoints⟩ := exists_raisesAt rfl ht' hf
  have hexcerpt := hquotes _ _ _ _ _ _ _ _ rfl ht' hf ht'' hraises
  rw [Report.excerpt_eq_iff rfl, hsource'] at hexcerpt
  obtain rfl | rfl : i = 0 ∨ i = 1 := by omega
  · cases ht.symm.trans ht''
    rw [hsource] at hexcerpt
    exact absurd hexcerpt (by cbv)
  · -- the text with the call has no such column
    cases ht'.symm.trans ht''
    obtain ⟨line, column, text, rest, hplace, -, -, -, hcolumn, htext, -⟩ := hpoints
    simp only [Fault.located, Position.place, Place.mk.injEq, Option.some.injEq] at hplace
    obtain rfl : line = 1 := by omega
    obtain rfl : column = 17 := by omega
    have hcall : Text.line? (1 - 1) "f();".toList = some "f();".toList := by cbv
    rw [hsource', hcall] at htext
    cases htext
    simp at hcolumn

end Interactive

end CommandLine

end Scripting
