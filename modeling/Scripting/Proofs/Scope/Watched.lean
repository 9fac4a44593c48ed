import Scripting.Proofs.Scope.Heap
import Scripting.Session

set_option autoImplicit false

/-! # Runs that look at the heap

Code without functions in it upholds the heap, whatever room there is for it and however its run
ends. So a run with a `Watch` that looks at the heap before and behind every expression and every
statement, those in the bodies of calls included, and at every value, has nothing to tell of, and
does the same as one that does not look. The induction is on the levels of evaluation; one level is
a case analysis of the tree. -/

namespace Scripting

/-! ## Looking -/

/-- What a run does to look at the heap: at a `scope` that something is about to run in or has run
    in, and at a `value` that has come of it. -/
structure Watch where
  scope : Nat → Run Unit
  value : Value → Run Unit

/-- Whether looking by `w` at an orderly heap does nothing, at a scope that is there and at a value
    that is held. -/
structure Watch.Idle (w : Watch) : Prop where
  scope : ∀ {m : Machine} {i : Nat}, m.Orderly → i < m.scopes.size → (w.scope i).run m = .ok () m
  value : ∀ {m : Machine} {v : Value}, m.Orderly → v.HeldBy m → (w.value v).run m = .ok () m

namespace Watch

/-- Look at the value that a signal carries. -/
def signal (w : Watch) : Signal → Run Unit
  | .returned v => w.value v
  | _ => return ()

/-- Look at the `scope` before the run `r` in it and behind, and at its result. -/
def around {α : Type} (w : Watch) (scope : Nat) (look : α → Run Unit) (r : Run α) : Run α := do
  w.scope scope
  let a ← r
  w.scope scope
  look a
  return a

variable {w : Watch}

theorem Idle.known (hw : w.Idle) {m : Machine} {v : Value} (hm : m.Formed)
    (h : m.extent.Knows v) : (w.value v).run m = .ok () m :=
  hw.value hm.orderly (hm.heldBy h)

theorem Idle.signal (hw : w.Idle) {m : Machine} {signal : Signal} (hm : m.Formed)
    (h : m.extent.KnowsSignal signal) : (w.signal signal).run m = .ok () m := by
  cases signal with
  | returned v => exact hw.known hm h
  | _ => rfl

/-- A run that upholds the heap is the same when it is watched by an `Idle` one. -/
theorem Idle.around (hw : w.Idle) {α : Type} {e : Extent} {Q : Extent → α → Prop} {scope : Nat}
    (hscope : scope < e.scopes) {look : α → Run Unit}
    (hlook : ∀ {m : Machine} {a : α}, m.Formed → Q m.extent a → (look a).run m = .ok () m)
    {r r' : Run α} (h : Run.Upholds e Q r r') : Run.Upholds e Q r (w.around scope look r') where
  same m hm hle := by
    have hend := h.ends hm hle
    rw [Watch.around, EStateM.run_bind, hw.scope hm.orderly (Nat.lt_of_lt_of_le hscope hle.1)]
    dsimp only
    rw [EStateM.run_bind, h.same hm hle]
    cases hrun : r.run m with
    | error stop m' => rfl
    | ok a m' =>
      rw [hrun] at hend
      obtain ⟨hm', hgrows, ha⟩ := hend
      have hscope' : scope < m'.scopes.size :=
        Nat.lt_of_lt_of_le hscope (Extent.le_trans hle hgrows.extent_le).1
      dsimp only
      rw [EStateM.run_bind, hw.scope hm'.orderly hscope']
      dsimp only
      rw [EStateM.run_bind, hlook hm' ha]
      rfl
  ends := h.ends

end Watch

open Run

/-- The means of a run with room for `depth` levels, which looks at the heap everywhere by `w`. -/
def Engine.watched (w : Watch) (rounds : Nat) : Nat → Engine
  | 0 =>
    let execute := fun scope (_ : Stmt) => w.around scope w.signal (throw .exhausted)
    { evaluate := fun scope _ => w.around scope w.value (throw .exhausted)
      execute
      call := Run.call (fun signal => return signal.result) execute }
  | depth + 1 =>
    let g := watched w rounds depth
    let execute := fun scope (s : Stmt) => w.around scope w.signal (s.executeBy g rounds scope)
    { evaluate := fun scope e => w.around scope w.value (e.evaluateBy g scope)
      execute
      call := Run.call (fun signal => return signal.result) execute }

/-- Run the statements of a program in the scope, and look at the heap everywhere by `w`. -/
def Program.runWatched (w : Watch) (limits : Limits) (scope : Nat) : Program → Run Unit
  | [] => return ()
  | s :: rest => do
    let _ ← (Engine.watched w limits.rounds limits.depth).execute scope s
    Program.runWatched w limits scope rest

/-- Run the text `source` in the outermost scope, and look at the heap everywhere by `w`. -/
def interpretWatched (w : Watch) (limits : Limits) (source : String) : Run Unit :=
  match Program.ofSource limits.nesting source with
  | .error refusal => throw refusal.stop
  | .ok (_, p) => p.runWatched w limits Machine.globals

namespace Run

variable {e : Extent}

/-! ## Sequences, loops and calls -/

theorem sequence_upholds {execute execute' : Stmt → Run Signal} {ss : List Stmt}
    (h : ∀ s ∈ ss, Upholds e Extent.KnowsSignal (execute s) (execute' s)) :
    Upholds e Extent.KnowsSignal (sequence execute ss) (sequence execute' ss) := by
  induction ss generalizing e with
  | nil => exact .pure fun _ _ => trivial
  | cons s rest ih =>
    obtain ⟨hfirst, hrest⟩ := List.forall_mem_cons.1 h
    refine hfirst.bind fun e' signal hle hsignal => ?_
    cases signal with
    | normal => exact ih fun t ht => (hrest t ht).mono hle
    | jump which => exact .pure fun _ _ => trivial
    | returned v => exact .pure fun _ hle' => Extent.Knows.mono hsignal hle'

theorem values_upholds {evaluate evaluate' : Expr → Run Value} {es : List Expr}
    (h : ∀ x ∈ es, Upholds e Extent.Knows (evaluate x) (evaluate' x)) :
    Upholds e (fun e' vs => ∀ v ∈ vs, e'.Knows v) (values evaluate es) (values evaluate' es) := by
  induction es generalizing e with
  | nil => exact .pure fun _ _ => by simp
  | cons x rest ih =>
    obtain ⟨hfirst, hrest⟩ := List.forall_mem_cons.1 h
    refine hfirst.bind fun e' v hle hv => ?_
    refine (ih fun y hy => (hrest y hy).mono hle).bind fun e'' vs hle' hvs => ?_
    refine .pure fun e''' hle'' => List.forall_mem_cons.2 ⟨?_, fun u hu => (hvs u hu).mono hle''⟩
    exact hv.mono (Extent.le_trans hle' hle'')

theorem repeatWhile_upholds {test test' : Run Value} {body body' : Run Signal}
    (htest : Upholds e Extent.Knows test test')
    (hbody : Upholds e Extent.KnowsSignal body body') (rounds : Nat) :
    Upholds e Extent.KnowsSignal (repeatWhile test body rounds)
      (repeatWhile test' body' rounds) := by
  induction rounds generalizing e with
  | zero => exact .throw _
  | succ rounds ih =>
    refine htest.bind fun e' v hle _ => ?_
    split
    · refine (hbody.mono hle).bind fun e'' signal hle' hsignal => ?_
      have hagain := ih (htest.mono (Extent.le_trans hle hle'))
        (hbody.mono (Extent.le_trans hle hle'))
      cases signal with
      | normal => exact hagain
      | jump which =>
        cases which with
        | leave => exact .pure fun _ _ => trivial
        | again => exact hagain
      | returned v => exact .pure fun _ hle'' => Extent.Knows.mono hsignal hle''
    · exact .pure fun _ _ => trivial

/-- The body of the function `f` is carried out in a new scope, inside the one that is its
    `closure`. -/
theorem enter_upholds {execute execute' : Nat → Stmt → Run Signal}
    (h : ∀ {e : Extent} {scope : Nat} {s : Stmt}, scope < e.scopes → s.FunctionFree →
      Upholds e Extent.KnowsSignal (execute scope s) (execute' scope s))
    {f : Function} (hcode : f.body.FunctionFree) (hclosure : f.closure < e.scopes)
    {arguments : List Value} (harguments : ∀ v ∈ arguments, e.Knows v) :
    Upholds e Extent.KnowsSignal (enter execute f arguments) (enter execute' f arguments) := by
  refine (openScope_upholds hclosure).bind fun e₁ scope hle hscope => ?_
  refine (defineAll_upholds scope f.parameters fun v hv => (harguments v hv).mono hle).bind
    fun e₂ _ hle' _ => ?_
  cases hbody : f.body with
  | block ss p =>
    rw [hbody] at hcode
    have hss := List.forall₂_same.1 (Stmt.allCorrespond_iff.1 hcode.1)
    exact sequence_upholds fun s hs => h (Nat.lt_of_lt_of_le hscope hle'.1) (hss s hs)
  | _ => exact .throw _

theorem call_upholds {execute execute' : Nat → Stmt → Run Signal}
    (h : ∀ {e : Extent} {scope : Nat} {s : Stmt}, scope < e.scopes → s.FunctionFree →
      Upholds e Extent.KnowsSignal (execute scope s) (execute' scope s))
    {callee : Value} (hcallee : e.Knows callee) {arguments : List Value}
    (harguments : ∀ v ∈ arguments, e.Knows v) (p : Position) :
    Upholds e Extent.Knows
      (call (fun signal => return signal.result) execute callee arguments p)
      (call (fun signal => return signal.result) execute' callee arguments p) := by
  cases callee with
  | builtin b =>
    unfold call
    simp only
    split
    · exact apply_upholds b arguments
    · exact fail_upholds _ p
  | function id name =>
    unfold call
    refine (function_upholds hcallee).bind fun e₁ f hle hf => ?_
    split
    · refine (record_upholds f.name arguments p).bind fun e₂ _ hle' _ => ?_
      have hclosure : f.closure < e₂.scopes := Nat.lt_of_lt_of_le hf.2 hle'.1
      have hknown (v : Value) (hv : v ∈ arguments) : e₂.Knows v :=
        (harguments v hv).mono (Extent.le_trans hle hle')
      refine (enter_upholds h hf.1 hclosure hknown).bind fun e₃ signal _ hsignal => ?_
      exact .pure fun _ hle'' => hsignal.result.mono hle''
    · exact fail_upholds _ p
  | _ => exact fail_upholds _ p

end Run

/-! ## One level -/

/-- Whether the means `g` of a run uphold the heap for code without functions in it, and `g'` do the
    same. -/
structure Engine.Upholds (g g' : Engine) : Prop where
  evaluate : ∀ {e : Extent} {scope : Nat} {x : Expr}, scope < e.scopes → x.FunctionFree →
    Run.Upholds e Extent.Knows (g.evaluate scope x) (g'.evaluate scope x)
  execute : ∀ {e : Extent} {scope : Nat} {s : Stmt}, scope < e.scopes → s.FunctionFree →
    Run.Upholds e Extent.KnowsSignal (g.execute scope s) (g'.execute scope s)
  call : ∀ {e : Extent} {callee : Value} {arguments : List Value}, e.Knows callee →
    (∀ v ∈ arguments, e.Knows v) → ∀ p,
    Run.Upholds e Extent.Knows (g.call callee arguments p) (g'.call callee arguments p)

variable {g g' : Engine} {e : Extent} {scope : Nat}

theorem Expr.evaluateBy_upholds (hg : g.Upholds g') (hscope : scope < e.scopes) {x : Expr}
    (h : x.FunctionFree) :
    Run.Upholds e Extent.Knows (x.evaluateBy g scope) (x.evaluateBy g' scope) := by
  cases x with
  | literal v p => exact .pure fun _ _ => h.1.2.within
  | grouping x p => exact hg.evaluate hscope h.1
  | identifier name p => exact lookup_upholds scope name p
  | assignment name x p =>
    obtain ⟨-, hx, -⟩ := h
    refine (hg.evaluate hscope hx).bind fun _ v _ hv => ?_
    refine (assign_upholds scope name hv p).bind fun _ _ hle _ => ?_
    exact .pure fun _ hle' => hv.mono (Extent.le_trans hle hle')
  | unary op x p =>
    obtain ⟨-, hx, -⟩ := h
    exact (hg.evaluate hscope hx).bind fun _ _ _ _ => ofExcept_upholds p Operation.type_of_negate
  | logical op x y p =>
    obtain ⟨-, hx, hy, -⟩ := h
    refine (hg.evaluate hscope hx).bind fun e' v hle hv => ?_
    split
    · exact .pure fun _ hle' => hv.mono hle'
    · exact hg.evaluate (Nat.lt_of_lt_of_le hscope hle.1) hy
  | binary op x y p =>
    obtain ⟨-, hx, hy, -⟩ := h
    refine (hg.evaluate hscope hx).bind fun e' v hle _ => ?_
    refine (hg.evaluate (Nat.lt_of_lt_of_le hscope hle.1) hy).bind fun _ _ _ _ => ?_
    exact ofExcept_upholds p Operation.type_of_binary
  | call x xs p =>
    obtain ⟨hx, hxs, -⟩ := h
    have hxs := List.forall₂_same.1 (Expr.allCorrespond_iff.1 hxs)
    refine (hg.evaluate hscope hx).bind fun e' v hle hv => ?_
    have hscope' : scope < e'.scopes := Nat.lt_of_lt_of_le hscope hle.1
    refine (values_upholds fun y hy => hg.evaluate hscope' (hxs y hy)).bind
      fun e'' vs hle' hvs => ?_
    exact hg.call (hv.mono hle') hvs p
  | stray written => exact .throw _

theorem Stmt.executeBy_upholds (hg : g.Upholds g') (rounds : Nat) (hscope : scope < e.scopes)
    {s : Stmt} (h : s.FunctionFree) :
    Run.Upholds e Extent.KnowsSignal (s.executeBy g rounds scope)
      (s.executeBy g' rounds scope) := by
  have hnormal {e : Extent} : Run.Upholds e Extent.KnowsSignal
      (return .normal : Run Signal) (return .normal) := .pure fun _ _ => trivial
  cases s with
  | expression x p => exact (hg.evaluate hscope h.1).bind fun _ _ _ _ => hnormal
  | print x p =>
    refine (hg.evaluate hscope h.1).bind fun _ v _ _ => ?_
    exact (print_upholds v).bind fun _ _ _ _ => hnormal
  | declaration name o p =>
    obtain ⟨-, ho, -⟩ := h
    have hdefine {e : Extent} {v : Value} (hv : e.Knows v) : Run.Upholds e Extent.KnowsSignal
        (do define scope name v; return .normal : Run Signal)
        (do define scope name v; return .normal) :=
      (define_upholds scope name hv).bind fun _ _ _ _ => hnormal
    cases ho with
    | none => exact hdefine (v := .nil) trivial
    | some hx => exact (hg.evaluate hscope hx).bind fun _ _ _ hv => hdefine hv
  | block ss p =>
    have hss := List.forall₂_same.1 (Stmt.allCorrespond_iff.1 h.1)
    refine (openScope_upholds hscope).bind fun _ inner _ hinner => ?_
    exact sequence_upholds fun s hs => hg.execute hinner (hss s hs)
  | conditional x s o p =>
    obtain ⟨hx, hs, ho, -⟩ := h
    refine (hg.evaluate hscope hx).bind fun e' v hle _ => ?_
    have hscope' : scope < e'.scopes := Nat.lt_of_lt_of_le hscope hle.1
    split
    · exact hg.execute hscope' hs
    · cases o with
      | none => exact hnormal
      | some s' => exact hg.execute hscope' ho
  | loop x s p =>
    obtain ⟨hx, hs, -⟩ := h
    exact repeatWhile_upholds (hg.evaluate hscope hx) (hg.execute hscope hs) rounds
  | function name names s p =>
    obtain ⟨-, -, hs, -⟩ := h
    have hdeclare := declare_upholds
      (f := { name, parameters := names, body := s, closure := scope }) hs hscope
    exact hdeclare.bind fun _ _ _ _ => hnormal
  | result o p =>
    obtain ⟨ho, -⟩ := h
    cases ho with
    | none => exact .pure fun _ _ => trivial
    | some hx =>
      exact (hg.evaluate hscope hx).bind fun _ v _ hv => .pure fun _ hle => hv.mono hle
  | jump which p => exact .pure fun _ _ => trivial
  | stray kind written => exact .throw _

/-! ## All levels -/

/-- Every level of an `engine` upholds the heap, and is the same when it is watched. -/
theorem Engine.watched_upholds {w : Watch} (hw : w.Idle) (rounds depth : Nat) :
    (engine rounds depth).Upholds (Engine.watched w rounds depth) := by
  unfold engine
  induction depth with
  | zero =>
    exact {
      evaluate := fun hscope _ => hw.around hscope hw.known (.throw _)
      execute := fun hscope _ => hw.around hscope hw.signal (.throw _)
      call := fun hv hvs p =>
        call_upholds (fun hscope _ => hw.around hscope hw.signal (.throw _)) hv hvs p }
  | succ depth ih =>
    exact {
      evaluate := fun hscope h => hw.around hscope hw.known (Expr.evaluateBy_upholds ih hscope h)
      execute := fun hscope h =>
        hw.around hscope hw.signal (Stmt.executeBy_upholds ih rounds hscope h)
      call := fun hv hvs p => call_upholds (fun hscope h =>
        hw.around hscope hw.signal (Stmt.executeBy_upholds ih rounds hscope h)) hv hvs p }

theorem Program.runWatched_upholds {w : Watch} (hw : w.Idle) (limits : Limits)
    (hscope : scope < e.scopes) {p : Program} (h : p.Corresponds .functionFree p) :
    Run.Upholds e Run.Whatever (p.run limits scope) (p.runWatched w limits scope) := by
  have hstatements := List.forall₂_same.1 h
  clear h
  induction p generalizing e with
  | nil => exact .pure fun _ _ => trivial
  | cons s rest ih =>
    obtain ⟨hfirst, hrest⟩ := List.forall_mem_cons.1 hstatements
    have hengine := Engine.watched_upholds hw limits.rounds limits.depth
    refine (hengine.execute hscope hfirst).bind fun e' _ hle _ => ?_
    exact ih (Nat.lt_of_lt_of_le hscope hle.1) hrest

end Scripting
