import Scripting.Proofs.CommandLine.Exhaustion
import Scripting.Proofs.CommandLine.Parallel

set_option autoImplicit false

/-! # More room for the command line

An action that does not use up its room does just the same with more of it, as `Limits.Within`
tells: every text that a session takes in, and the script, is read and run alike. -/

namespace Scripting

/-- The least room within which `limits` and `limits'` fit, where they have as many rounds. -/
def Limits.both (limits limits' : Limits) : Limits where
  nesting := max limits.nesting limits'.nesting
  depth := max limits.depth limits'.depth
  rounds := limits.rounds

theorem Limits.within_both_left (limits limits' : Limits) : limits.Within (limits.both limits') :=
  ⟨Nat.le_max_left _ _, Nat.le_max_left _ _, rfl⟩

theorem Limits.within_both_right {limits limits' : Limits} (h : limits'.rounds = limits.rounds) :
    limits'.Within (limits.both limits') :=
  ⟨Nat.le_max_right _ _, Nat.le_max_right _ _, h⟩

namespace CommandLine

/-- Whether a step ends a session for want of room, with the status `fatal`. -/
def Step.IsFatal : Step → Prop
  | .ended _ e => e = fatal
  | _ => False

section

variable {limits wider : Limits}

/-- A program that does not use up its room is run alike by `runTyped` with more. -/
theorem runTyped_of_within (h : limits.Within wider) {source : String} {tokens : List Token}
    {p : Program} (hread : Program.ofSource limits.nesting source = .ok (tokens, p)) {c : Console}
    (hroom : ¬ (runTyped limits source p c).IsFatal) :
    runTyped wider source p c = runTyped limits source p c := by
  have hstop : (interpret limits source).stop? c.machine ≠ some .exhausted := by
    intro hexhausted
    rw [interpret_of_ofSource hread] at hexhausted
    refine hroom ?_
    unfold runTyped
    rw [Console.run_eq, c.machine_trace, hexhausted]
    rfl
  have hrun := (h.cutShort source).run_eq_of_stop hstop
  rw [interpret_of_ofSource hread,
    interpret_of_ofSource ((h.ofSource_eq hstop).trans hread)] at hrun
  unfold runTyped
  simp only [Console.run_eq, c.machine_trace, Run.leaves, Run.stop?, hrun]

theorem takeTyped_of_within (h : limits.Within wider) {gathered : List String} {c : Console}
    (hroom : ¬ (takeTyped limits gathered c).IsFatal) :
    takeTyped wider gathered c = takeTyped limits gathered c := by
  have hread := Program.ofSource_cutShort (Grammar.nested (wider.nesting - limits.nesting))
    limits.nesting (sourceOf gathered)
  rw [Program.ofSourceUpTo_nested, Nat.sub_add_cancel h.nesting] at hread
  rcases hread with hsame | hcut
  · cases hlimits : Program.ofSource limits.nesting (sourceOf gathered) with
    | ok r =>
      rw [takeTyped_of_ok hlimits] at hroom
      rw [takeTyped_of_ok hlimits, takeTyped_of_ok (hsame.symm.trans hlimits)]
      exact runTyped_of_within h hlimits hroom
    | error e => cases e <;> simp only [takeTyped, ← hsame, hlimits]
  · refine absurd ?_ hroom
    rw [takeTyped_of_tooDeep hcut]
    rfl

namespace Interactive

theorem step_of_within (h : limits.Within wider) {s : Interactive}
    (hroom : ¬ (s.step limits).IsFatal) : s.step wider = s.step limits := by
  cases hlines : Text.lines s.console.machine.input with
  | nil => rw [step_of_end hlines, step_of_end hlines]
  | cons line more =>
    rw [step_of_line hlines] at hroom
    rw [step_of_line hlines, step_of_line hlines]
    split
    · rfl
    · rename_i hstays
      rw [if_neg hstays] at hroom
      exact takeTyped_of_within h hroom

/-- A session that does not use up its room goes on alike with `wider` limits, step by step. -/
theorem runWithin_of_within (h : limits.Within wider) (rounds : Nat) {s : Interactive}
    {fault : Option Text.Utf8Fault} (hroom : (s.runWithin limits rounds fault).2 ≠ fatal) :
    s.runWithin wider rounds fault = s.runWithin limits rounds fault := by
  induction rounds generalizing s with
  | zero => rfl
  | succ rounds ih =>
    rw [runWithin] at hroom
    have hstep : s.step wider = s.step limits := by
      refine step_of_within h fun hfatal => ?_
      cases hs : s.step limits with
      | next s' => rw [hs] at hfatal; exact hfatal
      | ended c e => rw [hs] at hfatal hroom; exact hroom hfatal
      | interrupted c => rw [hs] at hfatal; exact hfatal
    rw [runWithin, runWithin, hstep]
    cases hs : s.step limits with
    | next s' =>
      rw [hs] at hroom
      exact ih hroom
    | ended c e => rfl
    | interrupted c => rfl

end Interactive

theorem runScript_of_within (h : limits.Within wider) {path : String} {file : File} {c : Console}
    (hroom : (runScript limits path file c).2 ≠ fatal) :
    runScript wider path file c = runScript limits path file c := by
  unfold runScript at hroom ⊢
  cases hfile : file.read with
  | error why => rfl
  | ok content =>
    rw [hfile] at hroom
    cases htext : textOfBytes content with
    | error f => simp only [htext]
    | ok source =>
      simp only [htext] at hroom ⊢
      rw [(runSource_spec limits path source c).2, ne_eq, Stop.elim_ending_eq_fatal_iff] at hroom
      exact runSource_congr (h.ofSource_eq hroom) ((h.cutShort source).run_eq_of_stop hroom) path

/-- What broke the input off neither gives nor takes a status: `brokenOffBy` changes an `escaped`
    ending only. -/
theorem Ending.brokenOffBy_eq_status_iff {e : Ending} {fault : Option Text.Utf8Fault}
    {code : UInt32} : e.brokenOffBy fault = .status code ↔ e = .status code := by
  cases fault with
  | none => rw [brokenOffBy_none]
  | some f =>
    simp only [brokenOffBy]
    split
    · rename_i hbroken
      rw [hbroken]
      constructor <;> nofun
    · rfl

/-- An action `a` that does not use up its room does the same with `wider` limits. -/
theorem Action.run_of_within (h : limits.Within wider) {file : String → File} {c : Console}
    {a : Action} {fault : Option Text.Utf8Fault} (hroom : (a.run limits file c fault).2 ≠ fatal) :
    a.run wider file c fault = a.run limits file c fault := by
  cases a with
  | interactive => exact Interactive.runWithin_of_within h _ hroom
  | script path =>
    have hscript : (runScript limits path (file path) c).2 ≠ fatal :=
      fun hfatal => hroom (Ending.brokenOffBy_eq_status_iff.2 hfatal)
    simp only [run, runScript_of_within h hscript]
  | explain e => rfl

/-- Nor does the call `i` of the command as a whole do anything else with `wider` limits. -/
theorem Invocation.leaves_of_within (h : limits.Within wider) {i : Invocation}
    (hroom : (i.leaves limits).2 ≠ fatal) : i.leaves wider = i.leaves limits := by
  unfold leaves at hroom ⊢
  cases hsettle : i.environment.settle i.start with
  | error e => rfl
  | ok c =>
    rw [hsettle] at hroom
    unfold act at hroom ⊢
    dsimp only at hroom ⊢
    split
    · rfl
    · rename_i hbegins
      rw [if_neg hbegins] at hroom
      exact Action.run_of_within h hroom

end

end CommandLine

end Scripting
