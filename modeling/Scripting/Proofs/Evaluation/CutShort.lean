import Scripting.Evaluation

set_option autoImplicit false

/-! # Runs that are cut short

A run whose room is used up is cut short there, by `Stop.exhausted`. Nothing takes that up: the run
has done what the run with more room does up to the same place, and does no more. So it matters to
no other end of a run what there is beyond the room that it has. This is carried through every part
of evaluation, from two means that differ in what they are cut short in to what is carried out by
them. -/

namespace Scripting

/-! ## Computations -/

section

variable {ε σ α β : Type} {cut : ε} {after : σ → σ → Prop}

/-- Whether the state with which a computation ends, however it does, has the property `P`. -/
def EndsIn (P : σ → Prop) : EStateM.Result ε σ α → Prop
  | .ok _ s => P s
  | .error _ s => P s

/-- Whether the order `after` of states, from earlier to later ones, can be followed through
    computations. -/
class Advancing (after : σ → σ → Prop) : Prop where
  refl : ∀ s, after s s
  trans : ∀ {s s' s'' : σ}, after s s' → after s' s'' → after s s''

/-- Whether the computation `r` leads from every state to a later one. -/
def Advances (after : σ → σ → Prop) (r : EStateM ε σ α) : Prop :=
  ∀ s, EndsIn (after s) (r.run s)

/-- Whether the computation `r` does the same as `r'`, or else is `cut` short where `r'` goes on
    from. -/
structure CutShort (cut : ε) (after : σ → σ → Prop) (r r' : EStateM ε σ α) : Prop where
  ends : ∀ s, r.run s = r'.run s ∨
    ∃ s₁, r.run s = .error cut s₁ ∧ EndsIn (after s₁) (r'.run s)
  advances : Advances after r'

/-- The order that tells nothing apart. -/
instance : Advancing fun _ _ : σ => True where
  refl _ := trivial
  trans _ _ := trivial

theorem EndsIn.mono {P Q : σ → Prop} {result : EStateM.Result ε σ α} (h : EndsIn P result)
    (hPQ : ∀ s, P s → Q s) : EndsIn Q result := by
  cases result with
  | ok a s => exact hPQ s h
  | error e s => exact hPQ s h

namespace Advances

variable [Advancing after]

theorem pure (a : α) : Advances after (Pure.pure a : EStateM ε σ α) :=
  fun s => Advancing.refl s

theorem throw (e : ε) : Advances after (throw e : EStateM ε σ α) :=
  fun s => Advancing.refl s

theorem get : Advances after (MonadState.get : EStateM ε σ σ) :=
  fun s => Advancing.refl s

theorem bind {r : EStateM ε σ α} {f : α → EStateM ε σ β}
    (h : Advances after r) (hf : ∀ a, Advances after (f a)) : Advances after (r >>= f) := by
  intro s
  have hr := h s
  rw [EStateM.run_bind]
  cases hrun : r.run s with
  | ok a s₁ =>
    rw [hrun] at hr
    exact (hf a s₁).mono fun _ => Advancing.trans hr
  | error e s₁ => rw [hrun] at hr; exact hr

end Advances

/-- In the order that tells nothing apart, everything leads to a later state. -/
theorem Advances.any (r : EStateM ε σ α) : Advances (fun _ _ => True) r := by
  intro s
  cases r.run s <;> trivial

namespace CutShort

variable {r r' : EStateM ε σ α}

theorem refl (h : Advances after r) : CutShort cut after r r :=
  ⟨fun _ => .inl rfl, h⟩

/-- What is `cut` short at once is so in front of whatever the other computation does. -/
theorem throw (h : Advances after r) : CutShort cut after (throw cut) r :=
  ⟨fun s => .inr ⟨s, rfl, h s⟩, h⟩

theorem bind [Advancing after] {f f' : α → EStateM ε σ β} (h : CutShort cut after r r')
    (hf : ∀ a, CutShort cut after (f a) (f' a)) : CutShort cut after (r >>= f) (r' >>= f') where
  ends s := by
    rw [EStateM.run_bind, EStateM.run_bind]
    rcases h.ends s with hsame | ⟨s₁, hcut, hlater⟩
    · rw [hsame]
      cases r'.run s with
      | ok a s₁ => exact (hf a).ends s₁
      | error e s₁ => exact .inl rfl
    · rw [hcut]
      refine .inr ⟨s₁, rfl, ?_⟩
      cases hrun : r'.run s with
      | ok a s₂ =>
        rw [hrun] at hlater
        exact ((hf a).advances s₂).mono fun _ => Advancing.trans hlater
      | error e s₂ => rw [hrun] at hlater; exact hlater
  advances := h.advances.bind fun a => (hf a).advances

end CutShort

end

/-! ## Orders of machines -/

/-- Whether the machine `m'` has all the output of `m`, and possibly more behind it. -/
def Machine.Continues (m m' : Machine) : Prop :=
  ∃ text, m'.output = m.output ++ text

/-- Whether runs can be followed in an order of machines, for all that an order needs to know of
    them is that they only add to the output. -/
class Machine.Advancing (after : Machine → Machine → Prop) : Prop
    extends Scripting.Advancing after where
  of_continues : ∀ {m m' : Machine}, m.Continues m' → after m m'

instance : Machine.Advancing Machine.Continues where
  refl _ := ⟨"", by simp⟩
  trans := by
    rintro m m' m'' ⟨text, h⟩ ⟨text', h'⟩
    exact ⟨text ++ text', by rw [h', h, String.append_assoc]⟩
  of_continues h := h

instance : Machine.Advancing fun _ _ => True where
  of_continues _ := trivial

namespace Run

variable {α : Type} {after : Machine → Machine → Prop} [Machine.Advancing after]

/-! ## Steps of a run -/

theorem modify_advances {f : Machine → Machine} (hf : ∀ m : Machine, m.Continues (f m)) :
    Advances after (modify f : Run Unit) :=
  fun m => Machine.Advancing.of_continues (hf m)

theorem fail_advances (cause : Cause) (p : Position) : Advances after (fail cause p : Run α) :=
  .throw _

theorem ofExcept_advances (p : Position) (result : Except Hindrance α) :
    Advances after (ofExcept p result) := by
  cases result with
  | ok a => exact .pure a
  | error hindrance => cases hindrance <;> exact .throw _

theorem openScope_advances (scope : Nat) : Advances after (openScope scope) :=
  fun _ => Machine.Advancing.of_continues ⟨"", by simp⟩

theorem define_advances (scope : Nat) (name : String) (value : Value) :
    Advances after (define scope name value) :=
  modify_advances fun _ => ⟨"", by simp⟩

theorem defineAll_advances (scope : Nat) (names : List String) (values : List Value) :
    Advances after (defineAll scope names values) := by
  induction names generalizing values with
  | nil => exact .pure ()
  | cons name names ih =>
    cases values with
    | nil => exact .pure ()
    | cons value values =>
      exact (define_advances scope name value).bind fun _ => ih values

theorem lookup_advances (scope : Nat) (name : String) (p : Position) :
    Advances after (lookup scope name p) := by
  refine Advances.get.bind fun m => ?_
  split
  · exact .pure _
  · exact fail_advances _ p

theorem assign_advances (scope : Nat) (name : String) (value : Value) (p : Position) :
    Advances after (assign scope name value p) := by
  refine Advances.get.bind fun m => ?_
  split
  · exact define_advances _ name value
  · exact fail_advances _ p

theorem declare_advances (f : Function) : Advances after (declare f) := by
  have hkeep : Advances after (modifyGet (·.keep f) : Run Value) :=
    fun _ => Machine.Advancing.of_continues ⟨"", by simp⟩
  exact hkeep.bind fun value => define_advances f.closure f.name value

theorem function_advances (id : Nat) : Advances after (function id) :=
  Advances.get.bind fun _ => .pure _

theorem write_advances (text : String) : Advances after (write text) :=
  modify_advances fun _ => ⟨text, rfl⟩

theorem print_advances (value : Value) : Advances after (Run.print value) := by
  unfold Run.print
  split
  · exact write_advances _
  · exact .throw _

theorem record_advances (name : String) (values : List Value) (p : Position) :
    Advances after (record name values p) := by
  refine modify_advances fun m => ⟨"", ?_⟩
  split <;> simp

theorem readLine_advances : Advances after readLine := by
  intro m
  unfold readLine
  simp only [EStateM.run_bind, EStateM.run_get]
  split
  · exact Machine.Advancing.of_continues ⟨"", by simp⟩
  · exact Machine.Advancing.of_continues ⟨"", by simp⟩

theorem apply_advances (b : Builtin) (arguments : List Value) :
    Advances after (b.apply arguments) := by
  cases b with
  | input =>
    cases arguments with
    | nil =>
      exact (write_advances _).bind fun _ =>
        (readLine_advances).bind fun _ => .pure _
    | cons value values => exact .throw _


/-! ## Sequences, loops and calls -/

theorem sequence_cutShort {execute execute' : Stmt → Run Signal}
    (h : ∀ s, CutShort .exhausted after (execute s) (execute' s)) (ss : List Stmt) :
    CutShort .exhausted after (sequence execute ss) (sequence execute' ss) := by
  induction ss with
  | nil => exact .refl (.pure _)
  | cons s rest ih =>
    refine (h s).bind fun signal => ?_
    cases signal with
    | normal => exact ih
    | jump which => exact .refl (.pure _)
    | returned value => exact .refl (.pure _)

theorem values_cutShort {evaluate evaluate' : Expr → Run Value}
    (h : ∀ e, CutShort .exhausted after (evaluate e) (evaluate' e)) (es : List Expr) :
    CutShort .exhausted after (values evaluate es) (values evaluate' es) := by
  induction es with
  | nil => exact .refl (.pure _)
  | cons e rest ih => exact (h e).bind fun _ => ih.bind fun _ => .refl (.pure _)

theorem repeatWhile_cutShort {test test' : Run Value} {body body' : Run Signal}
    (htest : CutShort .exhausted after test test')
    (hbody : CutShort .exhausted after body body') (rounds : Nat) :
    CutShort .exhausted after (repeatWhile test body rounds) (repeatWhile test' body' rounds) := by
  induction rounds with
  | zero => exact .refl (.throw _)
  | succ rounds ih =>
    refine htest.bind fun value => ?_
    split
    · refine hbody.bind fun signal => ?_
      -- only a jump out of the loop and a return end it
      cases signal with
      | normal => exact ih
      | jump which =>
        cases which with
        | leave => exact .refl (.pure _)
        | again => exact ih
      | returned v => exact .refl (.pure _)
    · exact .refl (.pure _)

theorem enter_cutShort {execute execute' : Nat → Stmt → Run Signal}
    (h : ∀ scope s, CutShort .exhausted after (execute scope s) (execute' scope s))
    (f : Function) (arguments : List Value) :
    CutShort .exhausted after (enter execute f arguments) (enter execute' f arguments) := by
  refine (CutShort.refl (openScope_advances f.closure)).bind fun scope => ?_
  refine (CutShort.refl (defineAll_advances scope f.parameters arguments)).bind fun _ => ?_
  cases f.body with
  | block statements p => exact sequence_cutShort (h scope) statements
  | _ => exact .refl (.throw _)

theorem call_cutShort {conclude : Signal → Run Value}
    (hconclude : ∀ signal, Advances after (conclude signal))
    {execute execute' : Nat → Stmt → Run Signal}
    (h : ∀ scope s, CutShort .exhausted after (execute scope s) (execute' scope s))
    (callee : Value) (arguments : List Value) (p : Position) :
    CutShort .exhausted after (call conclude execute callee arguments p)
      (call conclude execute' callee arguments p) := by
  cases callee with
  | builtin b =>
    unfold call
    simp only
    split
    · exact .refl (apply_advances b arguments)
    · exact .refl (fail_advances _ p)
  | function id name =>
    unfold call
    refine (CutShort.refl (function_advances id)).bind fun f => ?_
    split
    · refine (CutShort.refl (record_advances f.name arguments p)).bind fun _ => ?_
      exact (enter_cutShort h f arguments).bind fun signal => .refl (hconclude signal)
    · exact .refl (fail_advances _ p)
  | _ => exact .refl (fail_advances _ p)

end Run

open Run

/-! ## One level -/

/-- Whether the means `g` of a run are those of `g'`, or are cut short. -/
structure Engine.CutShort (after : Machine → Machine → Prop) (g g' : Engine) : Prop where
  evaluate : ∀ scope e,
    Scripting.CutShort .exhausted after (g.evaluate scope e) (g'.evaluate scope e)
  execute : ∀ scope s,
    Scripting.CutShort .exhausted after (g.execute scope s) (g'.execute scope s)
  call : ∀ callee arguments p,
    Scripting.CutShort .exhausted after (g.call callee arguments p) (g'.call callee arguments p)

section

variable {after : Machine → Machine → Prop} [Machine.Advancing after] {g g' : Engine}

theorem Expr.evaluateBy_cutShort (hg : g.CutShort after g') (scope : Nat) (e : Expr) :
    CutShort .exhausted after (e.evaluateBy g scope) (e.evaluateBy g' scope) := by
  cases e with
  | literal value p => exact .refl (.pure _)
  | grouping inner p => exact hg.evaluate scope inner
  | identifier name p => exact .refl (lookup_advances scope name p)
  | assignment name value p =>
    refine (hg.evaluate scope value).bind fun v => ?_
    exact .refl ((assign_advances scope name v p).bind fun _ => .pure _)
  | unary op operand p =>
    exact (hg.evaluate scope operand).bind fun v => .refl (ofExcept_advances p _)
  | logical op left right p =>
    refine (hg.evaluate scope left).bind fun v => ?_
    split
    · exact .refl (.pure _)
    · exact hg.evaluate scope right
  | binary op left right p =>
    refine (hg.evaluate scope left).bind fun l => ?_
    exact (hg.evaluate scope right).bind fun r => .refl (ofExcept_advances p _)
  | call callee arguments p =>
    refine (hg.evaluate scope callee).bind fun f => ?_
    exact (values_cutShort (hg.evaluate scope) arguments).bind fun vs => hg.call f vs p
  | stray written => exact .refl (.throw _)

theorem Stmt.executeBy_cutShort (hg : g.CutShort after g') (rounds scope : Nat) (s : Stmt) :
    CutShort .exhausted after (s.executeBy g rounds scope) (s.executeBy g' rounds scope) := by
  cases s with
  | expression e p => exact (hg.evaluate scope e).bind fun _ => .refl (.pure _)
  | print e p =>
    refine (hg.evaluate scope e).bind fun v => ?_
    exact .refl ((print_advances v).bind fun _ => .pure _)
  | declaration name initializer p =>
    have hdefine (v : Value) : CutShort .exhausted after
        (do define scope name v; return .normal : Run Signal)
        (do define scope name v; return .normal) :=
      .refl ((define_advances scope name v).bind fun _ => .pure _)
    cases initializer with
    | none => exact hdefine .nil
    | some e => exact (hg.evaluate scope e).bind hdefine
  | block statements p =>
    refine (CutShort.refl (openScope_advances scope)).bind fun inner => ?_
    exact sequence_cutShort (hg.execute inner) statements
  | conditional condition thenBranch elseBranch p =>
    refine (hg.evaluate scope condition).bind fun v => ?_
    split
    · exact hg.execute scope thenBranch
    · cases elseBranch with
      | none => exact .refl (.pure _)
      | some s => exact hg.execute scope s
  | loop condition body p =>
    exact repeatWhile_cutShort (hg.evaluate scope condition) (hg.execute scope body) rounds
  | function name parameters body p =>
    exact .refl ((declare_advances _).bind fun _ => .pure _)
  | result value p =>
    cases value with
    | none => exact .refl (.pure _)
    | some e => exact (hg.evaluate scope e).bind fun _ => .refl (.pure _)
  | jump which p => exact .refl (.pure _)
  | stray kind written => exact .refl (.throw _)

end

/-! ## All levels -/

/-- What is done where there is no room for a further level: how an expression is evaluated there,
    and how a statement is executed. -/
structure Beyond where
  evaluate : Nat → Expr → Run Value
  execute : Nat → Stmt → Run Signal

/-- Whether what is done `beyond` the room of a run only leads to later machines. -/
structure Beyond.Advances (after : Machine → Machine → Prop) (beyond : Beyond) : Prop where
  evaluate : ∀ scope e, Scripting.Advances after (beyond.evaluate scope e)
  execute : ∀ scope s, Scripting.Advances after (beyond.execute scope s)

namespace Engine

/-- The means `g` of a run, as what is done beyond the room of another one. -/
def beyond (g : Engine) : Beyond :=
  ⟨g.evaluate, g.execute⟩

/-- The means of a run with room for `depth` levels, and what is done `beyond`. -/
def towerUpTo (beyond : Beyond) (conclude : Signal → Run Value) (rounds : Nat) : Nat → Engine
  | 0 =>
    { evaluate := beyond.evaluate
      execute := beyond.execute
      call := Run.call conclude beyond.execute }
  | depth + 1 =>
    { evaluate := fun scope e => e.evaluateBy (towerUpTo beyond conclude rounds depth) scope
      execute := fun scope s => s.executeBy (towerUpTo beyond conclude rounds depth) rounds scope
      call := Run.call conclude fun scope s =>
        s.executeBy (towerUpTo beyond conclude rounds depth) rounds scope }

/-- Further levels of a `tower` are something that is done beyond. -/
theorem towerUpTo_tower (conclude : Signal → Run Value) (rounds further depth : Nat) :
    towerUpTo (tower conclude rounds further).beyond conclude rounds depth =
      tower conclude rounds (further + depth) := by
  induction depth with
  | zero => cases further <;> rfl
  | succ depth ih => rw [towerUpTo, ih]; rfl

variable {after : Machine → Machine → Prop} [Machine.Advancing after]
  {conclude : Signal → Run Value}

/-- Levels that stop where there is no room for a further one, as those of a `tower`, are cut short
    of levels `beyond` which something else is done. -/
theorem tower_cutShort (hconclude : ∀ signal, Advances after (conclude signal)) {beyond : Beyond}
    (hbeyond : beyond.Advances after) (rounds depth : Nat) :
    (tower conclude rounds depth).CutShort after (towerUpTo beyond conclude rounds depth) := by
  induction depth with
  | zero =>
    exact {
      evaluate := fun scope e => .throw (hbeyond.evaluate scope e)
      execute := fun scope s => .throw (hbeyond.execute scope s)
      call := call_cutShort hconclude fun scope s => .throw (hbeyond.execute scope s) }
  | succ depth ih =>
    exact {
      evaluate := Expr.evaluateBy_cutShort ih
      execute := Stmt.executeBy_cutShort ih rounds
      call := call_cutShort hconclude (Stmt.executeBy_cutShort ih rounds) }

/-- The levels of a `tower`, with nothing beyond, lead to later machines. -/
theorem tower_advances (hconclude : ∀ signal, Advances after (conclude signal))
    (rounds depth : Nat) : (tower conclude rounds depth).beyond.Advances after := by
  have hnone : (tower conclude rounds 0).beyond.Advances after :=
    ⟨fun _ _ => .throw _, fun _ _ => .throw _⟩
  have hlevels := tower_cutShort hconclude hnone rounds depth
  rw [towerUpTo_tower, Nat.zero_add] at hlevels
  exact ⟨fun scope e => (hlevels.evaluate scope e).advances,
    fun scope s => (hlevels.execute scope s).advances⟩

end Engine

end Scripting
