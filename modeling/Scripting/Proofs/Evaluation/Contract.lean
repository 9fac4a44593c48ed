import Scripting.Evaluation
import Scripting.Proofs.Evaluation.Outcome
import Scripting.Proofs.Grammar.WellFormed

set_option autoImplicit false

/-! # What runs keep

A machine is `Machine.Sound` if the functions that it keeps could have been declared by programs
that were read. Here is what the parts of a run that are no evaluation do with such a machine: they
leave it sound, and stop only as `Stop.Expected`. Two runs `Agree` if they do the same on every
sound machine and keep all this; agreement is what an induction over evaluation can be carried on,
for runs that differ in what they do with signals. -/

namespace Scripting

/-! ## Sound machines -/

/-- Whether a function could have been declared by a program that was read: its body is a
    well-formed block. -/
def Function.Sound (f : Function) : Prop :=
  f.body.IsBlock ∧ f.body.WellFormed .functionBody

/-- Whether all functions of the machine `m` are sound. The end of its input, `i`, is kept in view,
    since it alone decides whether a run can be broken off. -/
structure Machine.Sound (i : InputEnd) (m : Machine) : Prop where
  functions : ∀ f ∈ m.functions, f.Sound
  inputEnd : m.inputEnd = i

/-! ## Contracts -/

namespace Run

variable {α β : Type} {i : InputEnd}

/-- Whether a run ended on a sound machine, and with a result that has the property `Q` or as
    `Stop.Expected`. -/
def Ending (i : InputEnd) (Q : α → Prop) : EStateM.Result Stop Machine α → Prop
  | .ok a m => m.Sound i ∧ Q a
  | .error e m => m.Sound i ∧ e.Expected i

/-- Whether the run `r` on a sound machine ends as it should. -/
def Ensures (i : InputEnd) (r : Run α) (Q : α → Prop) : Prop :=
  ∀ ⦃m : Machine⦄, m.Sound i → Ending i Q (r.run m)

/-- Whether the runs `r` and `r'` do the same on a sound machine, and end as they should. -/
structure Agree (i : InputEnd) (r r' : Run α) (Q : α → Prop) : Prop where
  same : ∀ ⦃m : Machine⦄, m.Sound i → r.run m = r'.run m
  ensures : Ensures i r Q

namespace Ensures

variable {r : Run α} {P Q : α → Prop} {Q' : β → Prop}

theorem pure {a : α} (h : Q a) : Ensures i (Pure.pure a) Q :=
  fun _ hm => ⟨hm, h⟩

theorem throw {e : Stop} (h : e.Expected i) : Ensures i (MonadExcept.throw e : Run α) Q :=
  fun _ hm => ⟨hm, h⟩

theorem bind {f : α → Run β} (h : Ensures i r P) (hf : ∀ a, P a → Ensures i (f a) Q') :
    Ensures i (r >>= f) Q' := by
  intro m hm
  have hr := h hm
  rw [EStateM.run_bind]
  cases hrun : r.run m with
  | ok a m' => rw [hrun] at hr; exact hf a hr.2 hr.1
  | error e m' => rw [hrun] at hr; exact hr

theorem modify {f : Machine → Machine} (hf : ∀ m : Machine, m.Sound i → (f m).Sound i) :
    Ensures i (modify f : Run Unit) fun _ => True :=
  fun m hm => ⟨hf m hm, trivial⟩

theorem get : Ensures i (MonadState.get : Run Machine) fun m => m.Sound i :=
  fun _ hm => ⟨hm, hm⟩

end Ensures

namespace Agree

variable {r r' : Run α} {P Q : α → Prop} {Q' : β → Prop}

theorem refl (h : Ensures i r Q) : Agree i r r Q :=
  ⟨fun _ _ => rfl, h⟩

theorem bind {f f' : α → Run β} (h : Agree i r r' P) (hf : ∀ a, P a → Agree i (f a) (f' a) Q') :
    Agree i (r >>= f) (r' >>= f') Q' where
  same m hm := by
    have hr := h.ensures hm
    rw [EStateM.run_bind, EStateM.run_bind, ← h.same hm]
    cases hrun : r.run m with
    | ok a m' => rw [hrun] at hr; exact (hf a hr.2).same hr.1
    | error e m' => rfl
  ensures := h.ensures.bind fun a ha => (hf a ha).ensures

end Agree

/-! ## Faults -/

theorem fail_ensures {Q : α → Prop} {cause : Cause} (h : cause.faultClass ∈ FaultClass.ofRuns)
    (p : Position) : Ensures i (fail cause p) Q :=
  .throw (.fault h)

/-- An operation that is hindered by faults only, as `h` says of its `result`. -/
theorem ofExcept_ensures (p : Position) {result : Except Hindrance α}
    (h : ∀ {hindrance : Hindrance}, result = .error hindrance → hindrance.Expected) :
    Ensures i (ofExcept p result) fun _ => True := by
  cases result with
  | ok a => exact .pure trivial
  | error hindrance =>
    cases hindrance with
    | fault cause => exact fail_ensures (h rfl) p
    | misplaced m => exact (h rfl).elim

/-! ## Scopes and functions -/

theorem openScope_ensures (scope : Nat) : Ensures i (openScope scope) fun _ => True :=
  fun _ hm => ⟨⟨hm.functions, hm.inputEnd⟩, trivial⟩

theorem define_ensures (scope : Nat) (name : String) (value : Value) :
    Ensures i (define scope name value) fun _ => True :=
  .modify fun _ hm => ⟨hm.functions, hm.inputEnd⟩

theorem defineAll_ensures (scope : Nat) (names : List String) (values : List Value) :
    Ensures i (defineAll scope names values) fun _ => True := by
  induction names generalizing values with
  | nil => exact .pure trivial
  | cons name names ih =>
    cases values with
    | nil => exact .pure trivial
    | cons value values => exact (define_ensures scope name value).bind fun _ _ => ih values

theorem lookup_ensures (scope : Nat) (name : String) (p : Position) :
    Ensures i (lookup scope name p) fun _ => True := by
  refine Ensures.get.bind fun m _ => ?_
  split
  · exact .pure trivial
  · exact fail_ensures (by simp [Cause.faultClass, FaultClass.ofRuns]) p

theorem assign_ensures (scope : Nat) (name : String) (value : Value) (p : Position) :
    Ensures i (assign scope name value p) fun _ => True := by
  refine Ensures.get.bind fun m _ => ?_
  split
  · exact define_ensures _ name value
  · exact fail_ensures (by simp [Cause.faultClass, FaultClass.ofRuns]) p

/-- A sound function `f` may be kept. -/
theorem declare_ensures {f : Function} (hf : f.Sound) : Ensures i (declare f) fun _ => True := by
  have hkeep : Ensures i (modifyGet (·.keep f) : Run Value) fun _ => True := by
    intro m hm
    refine ⟨⟨fun g hg => ?_, hm.inputEnd⟩, trivial⟩
    rcases Array.mem_push.1 hg with hg | rfl
    · exact hm.functions g hg
    · exact hf
  exact hkeep.bind fun value _ => define_ensures f.closure f.name value

/-- A function of a sound machine is sound, and so is the one that does nothing, which `function`
    gives for a number of none. -/
theorem function_ensures (id : Nat) : Ensures i (function id) Function.Sound := by
  refine Ensures.get.bind fun m hm => .pure ?_
  cases hf : m.functions[id]? with
  | none => exact ⟨trivial, trivial⟩
  | some f => exact hm.functions f (Array.mem_of_getElem? hf)

/-! ## Input and output -/

theorem write_ensures (text : String) : Ensures i (write text) fun _ => True :=
  .modify fun _ hm => ⟨hm.functions, hm.inputEnd⟩

theorem print_ensures (value : Value) : Ensures i (print value) fun _ => True := by
  obtain ⟨text, htext⟩ := Option.isSome_iff_exists.1 value.isSome_printed?
  unfold print
  rw [htext]
  exact write_ensures _

theorem record_ensures (name : String) (values : List Value) (p : Position) :
    Ensures i (record name values p) fun _ => True := by
  refine .modify fun m hm => ?_
  split
  · exact hm
  · exact ⟨hm.functions, hm.inputEnd⟩

theorem readLine_ensures : Ensures i readLine fun _ => True := by
  refine Ensures.get.bind fun m hm => ?_
  have hset : Ensures i (set { m with input := (Text.takeLine m.input).2 } : Run Unit)
      fun _ => True := fun _ _ => ⟨⟨hm.functions, hm.inputEnd⟩, trivial⟩
  have hrest : Ensures i
      (do set { m with input := (Text.takeLine m.input).2 }; return (Text.takeLine m.input).1)
      fun _ => True := hset.bind fun _ _ => .pure trivial
  simp only
  split
  · rename_i hend
    simp only [Bool.and_eq_true, decide_eq_true_eq] at hend
    -- nothing is left of the input, and it is one that is broken off
    have hbroken : Ensures i (throw .interrupted : Run PUnit) fun _ => True :=
      .throw (.interrupted (hm.inputEnd ▸ hend.2))
    exact hbroken.bind fun _ _ => hrest
  · exact hrest

theorem askLine_ensures : Ensures i askLine fun _ => True :=
  (write_ensures _).bind fun _ _ => readLine_ensures.bind fun _ _ => .pure trivial

/-- A builtin function is applied to as many arguments as its `arity` tells. -/
theorem apply_ensures {b : Builtin} {arguments : List Value} (h : arguments.length = b.arity) :
    Ensures i (b.apply arguments) fun _ => True := by
  cases b with
  | input =>
    obtain rfl : arguments = [] := List.eq_nil_of_length_eq_zero h
    exact askLine_ensures

end Run

end Scripting
