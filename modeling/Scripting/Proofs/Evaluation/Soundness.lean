import Scripting.Proofs.Evaluation.Contract

set_option autoImplicit false

/-! # Well-formed programs run soundly

On a sound machine, a part of the grammar is evaluated or executed to an end that is sound as well,
and a statement ends with a signal that its setting allows, `Setting.Allows`: a jump in a loop only,
and a return in a function only. So the body of a function ends without a jump, and what a call
makes of a jump does not matter. The induction is on the levels of evaluation; one level is a case
analysis of the tree, and the part of it that repeats something is an induction of its own. -/

namespace Scripting

/-! ## Signals -/

/-- Whether a statement that stands in the setting `w` may end with a signal. -/
def Setting.Allows (w : Setting) : Signal → Prop
  | .normal => True
  | .jump _ => w.inLoop = true
  | .returned _ => w.inFunction = true

/-- The body of a function ends on its own or with a return: these are the signals that
    `functionBody` allows. -/
theorem Setting.allows_functionBody_iff {signal : Signal} :
    Setting.functionBody.Allows signal ↔ signal = .normal ∨ ∃ value, signal = .returned value := by
  cases signal <;> simp [Allows, functionBody]

/-- The statements of a program end on their own: `outermost` allows nothing else. -/
theorem Setting.allows_outermost_iff {signal : Signal} :
    Setting.outermost.Allows signal ↔ signal = .normal := by
  cases signal <;> simp [Allows, outermost]

/-- What leaves a loop with a `returned` value may leave it in the setting of the loop. -/
theorem Setting.Allows.of_loopBody {w : Setting} {value : Value}
    (h : w.loopBody.Allows (.returned value)) : w.Allows (.returned value) := h

namespace Run

variable {i : InputEnd}

/-! ## Sequences, loops and calls -/

theorem sequence_agree {execute execute' : Stmt → Run Signal} {w : Setting} {ss : List Stmt}
    (h : ∀ s ∈ ss, Agree i (execute s) (execute' s) w.Allows) :
    Agree i (sequence execute ss) (sequence execute' ss) w.Allows := by
  induction ss with
  | nil => exact .refl (.pure trivial)
  | cons s rest ih =>
    obtain ⟨hfirst, hrest⟩ := List.forall_mem_cons.1 h
    refine hfirst.bind fun signal hsignal => ?_
    -- every signal but the normal one is that of the sequence
    cases signal with
    | normal => exact ih hrest
    | jump which => exact .refl (.pure hsignal)
    | returned value => exact .refl (.pure hsignal)

theorem values_agree {evaluate evaluate' : Expr → Run Value} {es : List Expr}
    (h : ∀ e ∈ es, Agree i (evaluate e) (evaluate' e) fun _ => True) :
    Agree i (values evaluate es) (values evaluate' es) fun _ => True := by
  induction es with
  | nil => exact .refl (.pure trivial)
  | cons e rest ih =>
    obtain ⟨hfirst, hrest⟩ := List.forall_mem_cons.1 h
    exact hfirst.bind fun _ _ => (ih hrest).bind fun _ _ => .refl (.pure trivial)

theorem repeatWhile_agree {test test' : Run Value} {body body' : Run Signal} {w : Setting}
    (htest : Agree i test test' fun _ => True) (hbody : Agree i body body' w.loopBody.Allows)
    (rounds : Nat) :
    Agree i (repeatWhile test body rounds) (repeatWhile test' body' rounds) w.Allows := by
  induction rounds with
  | zero => exact .refl (.throw .unfinished)
  | succ rounds ih =>
    refine htest.bind fun value _ => ?_
    split
    · refine hbody.bind fun signal hsignal => ?_
      -- the loop takes jumps up, and only a return goes on outwards
      cases signal with
      | normal => exact ih
      | jump which =>
        cases which with
        | leave => exact .refl (.pure trivial)
        | again => exact ih
      | returned v => exact .refl (.pure hsignal.of_loopBody)
    · exact .refl (.pure trivial)

theorem enter_agree {execute execute' : Nat → Stmt → Run Signal}
    (h : ∀ scope s, s.WellFormed .functionBody →
      Agree i (execute scope s) (execute' scope s) Setting.functionBody.Allows)
    {f : Function} (hf : f.Sound) (arguments : List Value) :
    Agree i (enter execute f arguments) (enter execute' f arguments)
      Setting.functionBody.Allows := by
  obtain ⟨hblock, hwf⟩ := hf
  unfold enter
  refine (Agree.refl (openScope_ensures f.closure)).bind fun scope _ => ?_
  refine (Agree.refl (defineAll_ensures scope f.parameters arguments)).bind fun _ _ => ?_
  cases hbody : f.body with
  | block statements p =>
    rw [hbody] at hwf
    exact sequence_agree fun s hs => h scope s (Stmt.allWellFormed_iff.1 hwf s hs)
  | _ => rw [hbody] at hblock; exact hblock.elim

/-- Calls agree if `conclude` and `conclude'` make the same of the signals with which the body of a
    function may end. -/
theorem call_agree {conclude conclude' : Signal → Run Value}
    {execute execute' : Nat → Stmt → Run Signal}
    (hconclude : ∀ signal, Setting.functionBody.Allows signal →
      Agree i (conclude signal) (conclude' signal) fun _ => True)
    (hexecute : ∀ scope s, s.WellFormed .functionBody →
      Agree i (execute scope s) (execute' scope s) Setting.functionBody.Allows)
    (callee : Value) (arguments : List Value) (p : Position) :
    Agree i (call conclude execute callee arguments p) (call conclude' execute' callee arguments p)
      fun _ => True := by
  cases callee with
  | builtin b =>
    unfold call
    simp only
    split
    · exact .refl (apply_ensures (by assumption))
    · exact .refl (fail_ensures (by simp [Cause.faultClass, FaultClass.ofRuns]) p)
  | function id name =>
    unfold call
    -- the function that is called has a body of the grammar
    refine (Agree.refl (function_ensures id)).bind fun f hf => ?_
    split
    · refine (Agree.refl (record_ensures f.name arguments p)).bind fun _ _ => ?_
      exact (enter_agree hexecute hf arguments).bind hconclude
    · exact .refl (fail_ensures (by simp [Cause.faultClass, FaultClass.ofRuns]) p)
  | _ => exact .refl (fail_ensures (by simp [Cause.faultClass, FaultClass.ofRuns]) p)

end Run

open Run

/-! ## One level -/

/-- Whether the means `g` and `g'` of two runs agree on all parts of the grammar. -/
structure Engine.Agree (i : InputEnd) (g g' : Engine) : Prop where
  evaluate : ∀ (scope : Nat) {e : Expr}, e.WellFormed →
    Run.Agree i (g.evaluate scope e) (g'.evaluate scope e) fun _ => True
  execute : ∀ (scope : Nat) {w : Setting} {s : Stmt}, s.WellFormed w →
    Run.Agree i (g.execute scope s) (g'.execute scope s) w.Allows
  call : ∀ (callee : Value) (arguments : List Value) (p : Position),
    Run.Agree i (g.call callee arguments p) (g'.call callee arguments p) fun _ => True

variable {i : InputEnd} {g g' : Engine}

theorem Expr.evaluateBy_agree (hg : g.Agree i g') (scope : Nat) {e : Expr} (hwf : e.WellFormed) :
    Run.Agree i (e.evaluateBy g scope) (e.evaluateBy g' scope) fun _ => True := by
  cases e with
  | literal value p => exact .refl (.pure trivial)
  | grouping inner p => exact hg.evaluate scope hwf
  | identifier name p => exact .refl (lookup_ensures scope name p)
  | assignment name value p =>
    have hvalue : value.WellFormed := hwf
    refine (hg.evaluate scope hvalue).bind fun v _ => ?_
    exact .refl ((assign_ensures scope name v p).bind fun _ _ => .pure trivial)
  | unary op operand p =>
    obtain ⟨_, _, hoperand⟩ := hwf
    refine (hg.evaluate scope hoperand).bind fun v _ => ?_
    exact .refl (ofExcept_ensures p Operation.expected_of_negate)
  | logical op left right p =>
    obtain ⟨_, _, _, hleft, hright⟩ := hwf
    refine (hg.evaluate scope hleft).bind fun v _ => ?_
    split
    · exact .refl (.pure trivial)
    · exact hg.evaluate scope hright
  | binary op left right p =>
    obtain ⟨hop, _, _, hleft, hright⟩ := hwf
    refine (hg.evaluate scope hleft).bind fun l _ => ?_
    refine (hg.evaluate scope hright).bind fun r _ => ?_
    exact .refl (ofExcept_ensures p (Operation.expected_of_binary hop))
  | call callee arguments p =>
    obtain ⟨_, hcallee, harguments⟩ := hwf
    refine (hg.evaluate scope hcallee).bind fun f _ => ?_
    have hvalues := values_agree fun e he =>
      hg.evaluate scope (Expr.allWellFormed_iff.1 harguments e he)
    exact hvalues.bind fun vs _ => hg.call f vs p
  | stray written => exact hwf.elim

theorem Stmt.executeBy_agree (hg : g.Agree i g') (rounds scope : Nat) {w : Setting} {s : Stmt}
    (hwf : s.WellFormed w) :
    Run.Agree i (s.executeBy g rounds scope) (s.executeBy g' rounds scope) w.Allows := by
  cases s with
  | expression e p => exact (hg.evaluate scope hwf).bind fun _ _ => .refl (.pure trivial)
  | print e p =>
    refine (hg.evaluate scope hwf).bind fun v _ => ?_
    exact .refl ((print_ensures v).bind fun _ _ => .pure trivial)
  | declaration name initializer p =>
    have hdefine (v : Value) : Run.Agree i
        (do define scope name v; return .normal : Run Signal)
        (do define scope name v; return .normal) w.Allows :=
      .refl ((define_ensures scope name v).bind fun _ _ => .pure trivial)
    cases initializer with
    | none => exact Agree.bind (P := fun _ => True) (.refl (.pure trivial)) fun v _ => hdefine v
    | some e => exact (hg.evaluate scope (hwf e rfl)).bind fun v _ => hdefine v
  | block statements p =>
    refine (Agree.refl (openScope_ensures scope)).bind fun inner _ => ?_
    exact sequence_agree fun s hs => hg.execute inner (Stmt.allWellFormed_iff.1 hwf s hs)
  | conditional condition thenBranch elseBranch p =>
    obtain ⟨hcondition, _, hthen, helse⟩ := hwf
    refine (hg.evaluate scope hcondition).bind fun v _ => ?_
    split
    · exact hg.execute scope hthen
    · cases elseBranch with
      | none => exact .refl (.pure trivial)
      | some s => exact hg.execute scope helse.2
  | loop condition body p =>
    obtain ⟨hcondition, _, hbody⟩ := hwf
    exact repeatWhile_agree (hg.evaluate scope hcondition) (hg.execute scope hbody) rounds
  | function name parameters body p =>
    obtain ⟨_, hblock, hbody⟩ := hwf
    exact .refl ((declare_ensures ⟨hblock, hbody⟩).bind fun _ _ => .pure trivial)
  | result value p =>
    obtain ⟨hw, hvalue⟩ := hwf
    cases value with
    | none => exact .refl (.pure hw)
    | some e => exact (hg.evaluate scope (hvalue e rfl)).bind fun _ _ => .refl (.pure hw)
  | jump which p => exact .refl (.pure hwf)
  | stray kind written => exact hwf.elim

/-! ## All levels -/

/-- Runs whose `conclude` and `conclude'` make the same of the signals with which the body of a
    function may end agree. -/
theorem Engine.tower_agree {conclude conclude' : Signal → Run Value}
    (hconclude : ∀ signal, Setting.functionBody.Allows signal →
      Run.Agree i (conclude signal) (conclude' signal) fun _ => True) (rounds depth : Nat) :
    (Engine.tower conclude rounds depth).Agree i (Engine.tower conclude' rounds depth) := by
  induction depth with
  | zero =>
    exact {
      evaluate := fun _ _ _ => .refl (.throw .exhausted)
      execute := fun _ _ _ _ => .refl (.throw .exhausted)
      call := call_agree hconclude fun _ _ _ => .refl (.throw .exhausted) }
  | succ depth ih =>
    exact {
      evaluate := fun scope _ hwf => Expr.evaluateBy_agree ih scope hwf
      execute := fun scope _ _ hwf => Stmt.executeBy_agree ih rounds scope hwf
      call := call_agree hconclude fun scope _ hwf => Stmt.executeBy_agree ih rounds scope hwf }

end Scripting
