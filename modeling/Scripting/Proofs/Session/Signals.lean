import Scripting.Proofs.Session.Reachable

set_option autoImplicit false

/-! # No signal gets lost

A run does not look at the signals with which the statements of a program end, and a call makes nil
of every signal of a body but `Signal.returned`. Neither loses anything: in a program that was read,
jumps stand in loops of their function and returns in functions, and every function that a session
keeps was read too. To say so of all calls of a run at once, the run is compared with one that tells
of every signal that would get lost: the two do the same, whatever the telling does. -/

namespace Scripting

/-! ## Runs that tell of lost signals -/

/-- The value of a call whose body ends with a signal, where `jump` tells of jumps. -/
def Signal.resultTelling (jump : Jump → Run Value) : Signal → Run Value
  | .normal => return .nil
  | .jump which => jump which
  | .returned value => return value

/-- Go on behind a statement of a program, where `lost` tells of signals other than the normal
    one. -/
def Signal.discardTelling (lost : Signal → Run Unit) : Signal → Run Unit
  | .normal => return ()
  | signal => lost signal

/-- Run the statements of a program in the scope, and tell by `jump` of the jumps that leave a
    function and by `lost` of the signals that leave a statement of the program. -/
def Program.runTelling (jump : Jump → Run Value) (lost : Signal → Run Unit) (limits : Limits)
    (scope : Nat) : Program → Run Unit
  | [] => return ()
  | s :: rest => do
    let signal ←
      (Engine.tower (Signal.resultTelling jump) limits.rounds limits.depth).execute scope s
    signal.discardTelling lost
    Program.runTelling jump lost limits scope rest

/-! ## Runs with and without telling -/

variable {i : InputEnd}

/-- The body of a function ends with no signal that `jump` would tell of. -/
theorem Signal.resultTelling_agree (jump : Jump → Run Value) {signal : Signal}
    (h : Setting.functionBody.Allows signal) :
    Run.Agree i (return signal.result) (signal.resultTelling jump) fun _ => True := by
  rcases Setting.allows_functionBody_iff.1 h with rfl | ⟨value, rfl⟩ <;>
    exact .refl (.pure trivial)

/-- The statements of a well-formed program end with no signal that `lost` would tell of. -/
theorem Program.runTelling_agree (jump : Jump → Run Value) (lost : Signal → Run Unit)
    (limits : Limits) (scope : Nat) {p : Program} (hwf : p.WellFormed) :
    Run.Agree i (p.run limits scope) (p.runTelling jump lost limits scope) fun _ => True := by
  induction p with
  | nil => exact .refl (.pure trivial)
  | cons s rest ih =>
    obtain ⟨hfirst, hrest⟩ := List.forall_mem_cons.1 hwf
    have hengines : (engine limits.rounds limits.depth).Agree i
        (.tower (Signal.resultTelling jump) limits.rounds limits.depth) :=
      Engine.tower_agree (fun _ => Signal.resultTelling_agree jump) limits.rounds limits.depth
    refine (hengines.execute scope hfirst).bind fun signal hsignal => ?_
    obtain rfl := Setting.allows_outermost_iff.1 hsignal
    exact ih hrest

/-- The body of a function of a `Reachable` machine ends on its own or with a return. -/
theorem Machine.Reachable.signal_of_enter {m m' : Machine} (hm : m.Reachable) {f : Function}
    (hf : f ∈ m.functions) {rounds depth : Nat} {arguments : List Value} {signal : Signal}
    (h : (Run.enter (Stmt.execute rounds depth) f arguments).run m = .ok signal m') :
    signal = .normal ∨ ∃ value, signal = .returned value := by
  have hagree := Run.enter_agree (i := m.inputEnd)
    (fun scope s hwf => .refl (Stmt.execute_ensures rounds depth scope hwf))
    (hm.sound.functions f hf) arguments
  have hend := hagree.ensures hm.sound
  rw [h] at hend
  exact Setting.allows_functionBody_iff.1 hend.2

/-- The program `p` that `ofTokens` has read loses no signal on a `Reachable` machine. Every
    statement of it that is run ends normally, the body of every function of the machine ends
    normally or with a return, and so do the bodies of all calls in the run: what would be done
    about any other signal is never done. -/
theorem Program.run_loses_no_signal {depth : Nat} {tokens : List Token} {p : Program}
    (hread : ofTokens depth tokens = .ok p) {m : Machine} (hm : m.Reachable) (limits : Limits) :
    (∀ {before rest : Program} {s : Stmt} {m₁ m₂ : Machine} {signal : Signal},
      p = before ++ s :: rest → (Program.run limits Machine.globals before).run m = .ok () m₁ →
      (s.execute limits.rounds limits.depth Machine.globals).run m₁ = .ok signal m₂ →
      signal = .normal) ∧
    (∀ f ∈ m.functions, ∀ {arguments : List Value} {m₁ : Machine} {signal : Signal},
      (Run.enter (Stmt.execute limits.rounds limits.depth) f arguments).run m = .ok signal m₁ →
      signal = .normal ∨ ∃ value, signal = .returned value) ∧
    ∀ (jump : Jump → Run Value) (lost : Signal → Run Unit),
      (p.runTelling jump lost limits Machine.globals).run m =
        (p.run limits Machine.globals).run m := by
  have hwf := wellFormed_of_ofTokens hread
  refine ⟨?_, fun f hf _ _ _ h => hm.signal_of_enter hf h, fun jump lost => ?_⟩
  · rintro before rest s m₁ m₂ signal rfl hbefore hs
    -- the statements before it leave a sound machine behind
    have hwfBefore : Program.WellFormed before := fun t ht => hwf t (List.mem_append_left _ ht)
    have hend₁ := Program.run_ensures limits Machine.globals hwfBefore hm.sound
    rw [hbefore] at hend₁
    have hwfStatement : s.WellFormed .outermost := hwf s (by simp)
    have hend₂ :=
      Stmt.execute_ensures limits.rounds limits.depth Machine.globals hwfStatement hend₁.1
    rw [hs] at hend₂
    exact Setting.allows_outermost_iff.1 hend₂.2
  · exact ((Program.runTelling_agree jump lost limits Machine.globals hwf).same hm.sound).symm

/-- The program `fn f() { return f; } f();` behind a text that stopped midway. -/
theorem Program.run_loses_no_signal_of_call :
    let tokens : List Token :=
      [.of .keyword "fn" .nil ⟨1, 1⟩, .of .identifier "f" .nil ⟨1, 4⟩,
       .of .punctuation "(" .nil ⟨1, 5⟩, .of .punctuation ")" .nil ⟨1, 6⟩,
       .of .punctuation Grammar.openBrace .nil ⟨1, 8⟩, .of .keyword "return" .nil ⟨1, 10⟩,
       .of .identifier "f" .nil ⟨1, 17⟩, .of .punctuation ";" .nil ⟨1, 18⟩,
       .of .punctuation Grammar.closeBrace .nil ⟨1, 20⟩, .of .identifier "f" .nil ⟨1, 22⟩,
       .of .punctuation "(" .nil ⟨1, 23⟩, .of .punctuation ")" .nil ⟨1, 24⟩,
       .of .punctuation ";" .nil ⟨1, 25⟩, .endAt ⟨1, 26⟩]
    let p : Program :=
      [.function "f" [] (.block [.result (some (.identifier "f" ⟨1, 17⟩)) ⟨1, 10⟩] ⟨1, 8⟩) ⟨1, 1⟩,
       .expression (.call (.identifier "f" ⟨1, 22⟩) [] ⟨1, 23⟩) ⟨1, 22⟩]
    let m := (Machine.fresh []).after ⟨4, 8, 8⟩ "let f = nil; f();"
    ofTokens 2 tokens = .ok p ∧ m.Reachable ∧
      ∀ (jump : Jump → Run Value) (lost : Signal → Run Unit),
        (p.runTelling jump lost ⟨4, 8, 8⟩ Machine.globals).run m =
          (p.run ⟨4, 8, 8⟩ Machine.globals).run m := by
  intro tokens p m
  have hread : ofTokens 2 tokens = .ok p := by rfl
  have hm : m.Reachable := .after (.fresh []) _ _
  exact ⟨hread, hm, (run_loses_no_signal hread hm ⟨4, 8, 8⟩).2.2⟩

end Scripting
