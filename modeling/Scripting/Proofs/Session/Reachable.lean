import Mathlib
import Scripting.Proofs.Evaluation.Soundness
import Scripting.Proofs.Grammar.Refusal
import Scripting.Proofs.Grammar.StatementSoundness
import Scripting.Session

set_option autoImplicit false

/-! # Sessions of programs that are read

A machine is `Machine.Reachable` if it comes from a fresh one by running texts, each of which may
end in any way. Only functions of programs that were read are kept on it, so it is sound. Running a
further text on it ends normally or as `Stop.Expected`: a program that was read never meets a
misplaced part, never divides by zero, and prints whatever it is asked to. -/

namespace Scripting

/-! ## Reachable machines -/

/-- The machine that running the text `source` on `m` leaves behind, however it ends. -/
def Machine.after (m : Machine) (limits : Limits) (source : String) : Machine :=
  match (interpret limits source).run m with
  | .ok _ m' => m'
  | .error _ m' => m'

/-- Whether a machine comes about in a session. Its streams may be exchanged between texts. -/
inductive Machine.Reachable : Machine → Prop
  | fresh (input : List Char) : Reachable (.fresh input)
  | streams {m : Machine} (h : m.Reachable) (input : List Char) (inputEnd : InputEnd)
      (output : String) (journal : Option String) :
      Reachable { m with input, inputEnd, output, journal }
  | after {m : Machine} (h : m.Reachable) (limits : Limits) (source : String) :
      Reachable (m.after limits source)

/-! ## Runs of programs -/

section Programs

variable {i : InputEnd}

/-- A well-formed statement ends with a signal that its setting `w` allows. -/
theorem Stmt.execute_ensures (rounds depth scope : Nat) {w : Setting} {s : Stmt}
    (hwf : s.WellFormed w) : Run.Ensures i (s.execute rounds depth scope) w.Allows := by
  have hagree : (engine rounds depth).Agree i (engine rounds depth) :=
    Engine.tower_agree (fun _ _ => .refl (.pure trivial)) rounds depth
  exact (hagree.execute scope hwf).ensures

theorem Program.run_ensures (limits : Limits) (scope : Nat) {p : Program} (hwf : p.WellFormed) :
    Run.Ensures i (p.run limits scope) fun _ => True := by
  induction p with
  | nil => exact .pure trivial
  | cons s rest ih =>
    obtain ⟨hfirst, hrest⟩ := List.forall_mem_cons.1 hwf
    exact (Stmt.execute_ensures limits.rounds limits.depth scope hfirst).bind fun _ _ => ih hrest

theorem interpret_ensures (limits : Limits) (source : String) :
    Run.Ensures i (interpret limits source) fun _ => True := by
  unfold interpret
  split
  · rename_i refusal hread
    refine .throw ?_
    -- a text that is nested too deeply is given up at the bound of the stack
    cases refusal with
    | tooDeep => exact .exhausted
    | fault f =>
      refine .refused ?_
      rcases Program.cause_of_ofSource hread with ⟨c, q, rfl⟩ | ⟨v, found, hcause⟩
      · unfold strayCharacter
        split <;> simp [Fault.located, Cause.faultClass, FaultClass.ofTexts]
      · simp [hcause, Cause.faultClass, FaultClass.ofTexts]
  · rename_i tokens p hread
    refine Program.run_ensures limits Machine.globals ?_
    unfold Program.ofSource at hread
    split at hread
    · simp at hread
    · rename_i tokens' _
      cases hp : Program.ofTokens limits.nesting tokens' with
      | error e => simp [hp, Except.map] at hread
      | ok p' =>
        simp only [hp, Except.map, Except.ok.injEq, Prod.mk.injEq] at hread
        exact hread.2 ▸ Program.wellFormed_of_ofTokens hp

end Programs

/-- A `Reachable` machine keeps only functions of programs that were read. -/
theorem Machine.Reachable.sound {m : Machine} (h : m.Reachable) : m.Sound m.inputEnd := by
  induction h with
  | fresh input => exact ⟨by simp [Machine.fresh, Machine.bare], rfl⟩
  | streams _ input inputEnd output journal ih => exact ⟨ih.functions, rfl⟩
  | @after m _ limits source ih =>
    have hend := interpret_ensures limits source ih
    unfold Machine.after
    cases hrun : (interpret limits source).run m with
    | ok a m' => rw [hrun] at hend; exact ⟨hend.1.functions, rfl⟩
    | error e m' => rw [hrun] at hend; exact ⟨hend.1.functions, rfl⟩

/-! ## How a text may end -/

/-- Running the text `source` on a `Reachable` machine succeeds or ends as `Expected`: with a
    refusal of the text, with one of the five faults of running programs, at a bound of the run, or
    where the input is broken off. Misplaced parts are never met, so every node and every operator
    has a meaning where it stands, no division has a zero for its divisor, every value that is
    printed has a text, and no builtin function is applied to a wrong number of arguments. -/
theorem expected_of_interpret {m m' : Machine} (hm : m.Reachable) {limits : Limits}
    {source : String} {stop : Stop} (h : (interpret limits source).run m = .error stop m') :
    stop.Expected m.inputEnd := by
  have hend := interpret_ensures limits source hm.sound
  rw [h] at hend
  exact hend.2

/-- A text that is run behind one that stopped midway: `-f;` behind `let f = nil; f();`. -/
theorem expected_of_interpret_negation :
    let m := (Machine.fresh []).after ⟨4, 8, 8⟩ "let f = nil; f();"
    let stop : Stop := .fault (.located (.typeMismatch (.negation .nil)) ⟨1, 1⟩)
    (interpret ⟨4, 8, 8⟩ "-f;").run m = .error stop m ∧ stop.Expected m.inputEnd := by
  have hrun : (interpret ⟨4, 8, 8⟩ "-f;").run
      ((Machine.fresh []).after ⟨4, 8, 8⟩ "let f = nil; f();") =
      .error (.fault (.located (.typeMismatch (.negation .nil)) ⟨1, 1⟩))
        ((Machine.fresh []).after ⟨4, 8, 8⟩ "let f = nil; f();") := by cbv
  exact ⟨hrun, expected_of_interpret (.after (.fresh []) _ _) hrun⟩

end Scripting
