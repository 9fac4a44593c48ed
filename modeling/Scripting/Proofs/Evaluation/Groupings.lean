import Mathlib
import Scripting.Proofs.Evaluation.Keeping
import Scripting.Proofs.Grammar.Ungrouped
import Scripting.Proofs.Session.Exhaustion

set_option autoImplicit false

/-! # Parentheses only group

A program without its groupings, `Program.ungrouped`, does the same, on a machine whose functions
have been kept without theirs. Only the room that it takes is another, since a grouping is a level
of evaluation of its own. So a run is not set beside one other run, but beside one for each room. It
is `Run.Followed` by them if from some room on they all end as it does. This is found out by
induction on the room of the run that is followed. Groupings in the first program use that room up;
those in the second are passed by going on to more room. Which of the two programs has more
groupings does not matter, so that each is followed by the other. -/

namespace Scripting

/-! ## Machines without groupings -/

/-- A function without the groupings in its body. -/
def Function.ungrouped (f : Function) : Function :=
  { f with body := f.body.ungrouped }

/-- A machine that has kept its `functions` without their groupings. -/
def Machine.ungrouped (m : Machine) : Machine :=
  { m with functions := m.functions.map Function.ungrouped }

@[simp] theorem Function.ungrouped_ungrouped (f : Function) :
    f.ungrouped.ungrouped = f.ungrouped := by
  simp [ungrouped]

@[simp] theorem Machine.ungrouped_ungrouped (m : Machine) :
    m.ungrouped.ungrouped = m.ungrouped := by
  simp [ungrouped]

/-- How a run ended. -/
abbrev Ended (α : Type) := EStateM.Result Stop Machine α

/-- How a run ended, with the machine it left behind kept without groupings. -/
def Ended.ungrouped {α : Type} : Ended α → Ended α
  | .ok a m => .ok a m.ungrouped
  | .error e m => .error e m.ungrouped

namespace Run

variable {α β : Type}

/-! ## Steps in which no code is carried out -/

/-- Whether the run `r` does the same on a machine without groupings. -/
def Plain (r : Run α) : Prop :=
  ∀ m : Machine, r.run m.ungrouped = Ended.ungrouped (r.run m)

namespace Plain

theorem pure (a : α) : Plain (Pure.pure a) :=
  fun _ => rfl

theorem throw (e : Stop) : Plain (throw e : Run α) :=
  fun _ => rfl

theorem bind {r : Run α} {f : α → Run β} (h : Plain r) (hf : ∀ a, Plain (f a)) :
    Plain (r >>= f) := by
  intro m
  rw [EStateM.run_bind, EStateM.run_bind, h m]
  cases r.run m with
  | ok a m₁ => exact hf a m₁
  | error e m₁ => rfl

end Plain

theorem ofExcept_plain (p : Position) (result : Except Hindrance α) :
    Plain (ofExcept p result) := by
  cases result with
  | ok a => exact .pure a
  | error hindrance => cases hindrance <;> exact .throw _

theorem openScope_plain (scope : Nat) : Plain (openScope scope) :=
  fun _ => rfl

theorem define_plain (scope : Nat) (name : String) (value : Value) :
    Plain (define scope name value) :=
  fun _ => rfl

theorem defineAll_plain (scope : Nat) (names : List String) (values : List Value) :
    Plain (defineAll scope names values) := by
  induction names generalizing values with
  | nil => exact .pure ()
  | cons name names ih =>
    cases values with
    | nil => exact .pure ()
    | cons value values => exact (define_plain scope name value).bind fun _ => ih values

theorem lookup_plain (scope : Nat) (name : String) (p : Position) :
    Plain (lookup scope name p) := by
  intro m
  simp only [lookup, EStateM.run_bind, EStateM.run_get, Machine.ungrouped]
  cases m.scopes.get? scope name <;> rfl

theorem assign_plain (scope : Nat) (name : String) (value : Value) (p : Position) :
    Plain (assign scope name value p) := by
  intro m
  simp only [assign, EStateM.run_bind, EStateM.run_get, Machine.ungrouped]
  cases m.scopes.resolve name scope <;> rfl

theorem write_plain (text : String) : Plain (write text) :=
  fun _ => rfl

theorem print_plain (value : Value) : Plain (Run.print value) := by
  unfold Run.print
  split
  · exact write_plain _
  · exact .throw _

theorem record_plain (name : String) (values : List Value) (p : Position) :
    Plain (record name values p) := by
  rintro ⟨scopes, functions, input, inputEnd, output, journal⟩
  cases journal <;> rfl

theorem readLine_plain : Plain readLine := by
  intro m
  simp only [readLine, EStateM.run_bind, EStateM.run_get, Machine.ungrouped]
  split <;> rfl

theorem apply_plain (b : Builtin) (arguments : List Value) : Plain (b.apply arguments) := by
  cases b with
  | input =>
    cases arguments with
    | nil =>
      exact (write_plain inputPrompt).bind fun _ => readLine_plain.bind fun _ => .pure _
    | cons value values => exact .throw _

/-! ## Runs that are followed -/

/-- Whether the run `r` is followed by the runs `f`, with more and more room. On machines that are
    equal up to groupings, those with room enough all end in one way, which is equal up to groupings
    to that of `r`, unless that one has used up its own room. -/
def Followed (r : Run α) (f : Nat → Run α) : Prop :=
  ∀ ⦃m m' : Machine⦄, m.ungrouped = m'.ungrouped → r.stop? m ≠ some .exhausted →
    ∃ room ended, Ended.ungrouped ended = Ended.ungrouped (r.run m) ∧
      ∀ depth, room ≤ depth → (f depth).run m' = ended

namespace Followed

variable {r : Run α} {f : Nat → Run α}

theorem of_plain (h : Plain r) : Followed r fun _ => r := by
  intro m m' hm _
  refine ⟨0, r.run m', ?_, fun _ _ => rfl⟩
  rw [← h m, ← h m', hm]

theorem exhausted : Followed (throw .exhausted) f :=
  fun _ _ _ hroom => (hroom rfl).elim

/-- It makes no difference from which room on a run is looked at. -/
theorem succ_iff : (Followed r fun depth => f (depth + 1)) ↔ Followed r f := by
  constructor
  · intro h m m' hm hroom
    obtain ⟨room, ended, hended, hall⟩ := h hm hroom
    refine ⟨room + 1, ended, hended, fun depth hdepth => ?_⟩
    obtain ⟨depth, rfl⟩ := Nat.exists_eq_add_one.2 (Nat.lt_of_lt_of_le room.succ_pos hdepth)
    exact hall depth (Nat.le_of_succ_le_succ hdepth)
  · intro h m m' hm hroom
    obtain ⟨room, ended, hended, hall⟩ := h hm hroom
    exact ⟨room, ended, hended, fun depth hdepth => hall _ (Nat.le_succ_of_le hdepth)⟩

theorem bind {k : α → Run β} {k' : Nat → α → Run β} (h : Followed r f)
    (hk : ∀ a, Followed (k a) fun depth => k' depth a) :
    Followed (r >>= k) fun depth => f depth >>= k' depth := by
  intro m m' hm hroom
  have hr := h hm
  unfold stop? at hr hroom
  rw [EStateM.run_bind] at hroom ⊢
  cases hrun : r.run m with
  | ok a m₁ =>
    rw [hrun] at hr hroom
    obtain ⟨room, ended, hended, hall⟩ := hr nofun
    cases ended with
    | ok a' m₁' =>
      obtain ⟨rfl, hm₁⟩ : a' = a ∧ m₁'.ungrouped = m₁.ungrouped := by
        simpa [Ended.ungrouped] using hended
      obtain ⟨room', ended, hended, hall'⟩ := hk a' hm₁.symm hroom
      -- each part has its own room, and the larger is enough for both
      refine ⟨max room room', ended, hended, fun depth hdepth => ?_⟩
      rw [EStateM.run_bind, hall depth (Nat.le_trans (Nat.le_max_left ..) hdepth)]
      exact hall' depth (Nat.le_trans (Nat.le_max_right ..) hdepth)
    | error e' m₁' => simp [Ended.ungrouped] at hended
  | error e m₁ =>
    rw [hrun] at hr hroom
    obtain ⟨room, ended, hended, hall⟩ := hr hroom
    cases ended with
    | ok a' m₁' => simp [Ended.ungrouped] at hended
    | error e' m₁' =>
      have hended : Ended.ungrouped (.error e' m₁' : Ended β) =
          Ended.ungrouped (.error e m₁) := by
        simpa [Ended.ungrouped] using hended
      refine ⟨room, .error e' m₁', hended, fun depth hdepth => ?_⟩
      rw [EStateM.run_bind, hall depth hdepth]

/-- A step `r` in which no code is carried out, and what comes behind it. -/
theorem step {k : α → Run β} {k' : Nat → α → Run β} (h : Plain r)
    (hk : ∀ a, Followed (k a) fun depth => k' depth a) :
    Followed (r >>= k) fun depth => r >>= k' depth :=
  (of_plain h).bind hk

end Followed

/-! ## Functions -/

theorem getD_functions_ungrouped (m : Machine) (id : Nat) :
    m.ungrouped.functions[id]?.getD (.idle "" []) =
      (m.functions[id]?.getD (.idle "" [])).ungrouped := by
  simp only [Machine.ungrouped, Array.getElem?_map]
  cases m.functions[id]? <;> rfl

/-- What is done with a function that was kept, which `function` gives. -/
theorem function_followed {id : Nat} {k : Function → Run α} {k' : Nat → Function → Run α}
    (h : ∀ f f' : Function, f.ungrouped = f'.ungrouped →
      Followed (k f) fun depth => k' depth f') :
    Followed (function id >>= k) fun depth => function id >>= k' depth :=
  fun m m' hm hroom =>
    have hkept : (m.functions[id]?.getD (.idle "" [])).ungrouped =
        (m'.functions[id]?.getD (.idle "" [])).ungrouped := by
      rw [← getD_functions_ungrouped, ← getD_functions_ungrouped, hm]
    h _ _ hkept hm hroom

/-- A function that `declare` keeps without its groupings is kept without them. -/
theorem run_declare_ungrouped (f : Function) (m : Machine) :
    (declare f.ungrouped).run m.ungrouped = Ended.ungrouped ((declare f).run m) := by
  change EStateM.Result.ok _ _ = EStateM.Result.ok _ _
  simp [Machine.ungrouped, Function.ungrouped]

theorem declare_followed {f f' : Function} (h : f.ungrouped = f'.ungrouped) :
    Followed (declare f) fun _ => declare f' := by
  intro m m' hm _
  refine ⟨0, (declare f').run m', ?_, fun _ _ => rfl⟩
  rw [← run_declare_ungrouped, ← run_declare_ungrouped, h, hm]

/-! ## Sequences, loops and calls -/

theorem sequence_followed {execute : Stmt → Run Signal} {execute' : Nat → Stmt → Run Signal}
    (h : ∀ s s' : Stmt, s.ungrouped = s'.ungrouped →
      Followed (execute s) fun depth => execute' depth s') {ss ss' : List Stmt}
    (hss : ss.map Stmt.ungrouped = ss'.map Stmt.ungrouped) :
    Followed (sequence execute ss) fun depth => sequence (execute' depth) ss' := by
  induction ss generalizing ss' with
  | nil =>
    obtain rfl : ss' = [] := by simpa using hss.symm
    exact .of_plain (.pure _)
  | cons s rest ih =>
    obtain ⟨s', rest', rfl, hs, hrest⟩ := List.map_eq_cons_iff.1 hss.symm
    refine (h s s' hs.symm).bind fun signal => ?_
    cases signal with
    | normal => exact ih hrest.symm
    | jump which => exact .of_plain (.pure _)
    | returned value => exact .of_plain (.pure _)

theorem values_followed {evaluate : Expr → Run Value} {evaluate' : Nat → Expr → Run Value}
    (h : ∀ e e' : Expr, e.ungrouped = e'.ungrouped →
      Followed (evaluate e) fun depth => evaluate' depth e') {es es' : List Expr}
    (hes : es.map Expr.ungrouped = es'.map Expr.ungrouped) :
    Followed (values evaluate es) fun depth => values (evaluate' depth) es' := by
  induction es generalizing es' with
  | nil =>
    obtain rfl : es' = [] := by simpa using hes.symm
    exact .of_plain (.pure _)
  | cons e rest ih =>
    obtain ⟨e', rest', rfl, he, hrest⟩ := List.map_eq_cons_iff.1 hes.symm
    exact (h e e' he.symm).bind fun _ => (ih hrest.symm).bind fun _ => .of_plain (.pure _)

theorem repeatWhile_followed {test : Run Value} {test' : Nat → Run Value} {body : Run Signal}
    {body' : Nat → Run Signal} (htest : Followed test test') (hbody : Followed body body')
    (rounds : Nat) :
    Followed (repeatWhile test body rounds) fun depth =>
      repeatWhile (test' depth) (body' depth) rounds := by
  induction rounds with
  | zero => exact .of_plain (.throw _)
  | succ rounds ih =>
    refine htest.bind fun value => ?_
    split
    · refine hbody.bind fun signal => ?_
      -- only a jump out of the loop and a return end it
      cases signal with
      | normal => exact ih
      | jump which =>
        cases which with
        | leave => exact .of_plain (.pure _)
        | again => exact ih
      | returned v => exact .of_plain (.pure _)
    · exact .of_plain (.pure _)

theorem enter_followed {execute : Nat → Stmt → Run Signal}
    {execute' : Nat → Nat → Stmt → Run Signal}
    (h : ∀ (scope : Nat) (s s' : Stmt), s.ungrouped = s'.ungrouped →
      Followed (execute scope s) fun depth => execute' depth scope s') {f f' : Function}
    (hf : f.ungrouped = f'.ungrouped) (arguments : List Value) :
    Followed (enter execute f arguments) fun depth => enter (execute' depth) f' arguments := by
  obtain ⟨name, parameters, body, closure⟩ := f
  obtain ⟨name', parameters', body', closure'⟩ := f'
  obtain ⟨rfl, rfl, hbody, rfl⟩ := Function.mk.inj hf
  refine .step (openScope_plain closure) fun scope => ?_
  refine .step (defineAll_plain scope parameters arguments) fun _ => ?_
  match body, body', Stmt.matches_of_ungrouped_eq hbody with
  | .block ss _, .block ss' _, ⟨hss, _⟩ => exact sequence_followed (h scope) hss
  -- nothing else is carried out as a body
  | .expression _ _, .expression _ _, _ | .declaration _ _ _, .declaration _ _ _, _
  | .conditional _ _ _ _, .conditional _ _ _ _, _ | .loop _ _ _, .loop _ _ _, _
  | .function _ _ _ _, .function _ _ _ _, _ | .result _ _, .result _ _, _
  | .print _ _, .print _ _, _ | .stray _ _, .stray _ _, ⟨rfl, _⟩ => exact .of_plain (.throw _)
  | .jump which _, .jump _ _, ⟨rfl, _⟩ => cases which <;> exact .of_plain (.throw _)

theorem call_followed {conclude : Signal → Run Value}
    (hconclude : ∀ signal, Plain (conclude signal)) {execute : Nat → Stmt → Run Signal}
    {execute' : Nat → Nat → Stmt → Run Signal}
    (h : ∀ (scope : Nat) (s s' : Stmt), s.ungrouped = s'.ungrouped →
      Followed (execute scope s) fun depth => execute' depth scope s')
    (callee : Value) (arguments : List Value) (p : Position) :
    Followed (call conclude execute callee arguments p) fun depth =>
      call conclude (execute' depth) callee arguments p := by
  cases callee with
  | builtin b =>
    unfold call
    simp only
    split
    · exact .of_plain (apply_plain b arguments)
    · exact .of_plain (.throw _)
  | function id name =>
    refine function_followed fun f f' hf => ?_
    obtain ⟨hname, hparameters, -⟩ := Function.mk.inj hf
    simp only [hname, hparameters]
    split
    · refine .step (record_plain f'.name arguments p) fun _ => ?_
      exact (enter_followed h hf arguments).bind fun signal => .of_plain (hconclude signal)
    · exact .of_plain (.throw _)
  | _ => exact .of_plain (.throw _)

end Run

open Run

/-! ## One level -/

/-- Whether the means `g` of a run are followed by those of runs with more and more room, on code
    that is equal up to groupings. -/
structure Engine.Followed (g : Engine) (rounds : Nat) : Prop where
  evaluate : ∀ (scope : Nat) (e e' : Expr), e.ungrouped = e'.ungrouped →
    (g.evaluate scope e).Followed fun depth => (engine rounds depth).evaluate scope e'
  execute : ∀ (scope : Nat) (s s' : Stmt), s.ungrouped = s'.ungrouped →
    (g.execute scope s).Followed fun depth => (engine rounds depth).execute scope s'
  call : ∀ (callee : Value) (arguments : List Value) (p : Position),
    (g.call callee arguments p).Followed fun depth =>
      (engine rounds depth).call callee arguments p

section

variable {g : Engine} {rounds scope : Nat}

/-- The groupings around the `core` of an expression take up room and do nothing else. -/
theorem Expr.evaluate_core_followed {r : Run Value} :
    ∀ {e : Expr}, (r.Followed fun depth => (engine rounds depth).evaluate scope e.core) →
      r.Followed fun depth => (engine rounds depth).evaluate scope e
  | .grouping inner _, h => Followed.succ_iff.1 (evaluate_core_followed (e := inner) h)
  | .literal _ _, h | .identifier _ _, h | .unary _ _ _, h | .binary _ _ _ _, h
  | .logical _ _ _ _, h | .call _ _ _, h | .assignment _ _ _, h | .stray _, h => h

theorem Expr.evaluateBy_followed (hg : g.Followed rounds) {e c : Expr} (h : e.Matches c) :
    (e.evaluateBy g scope).Followed fun depth => c.evaluateBy (engine rounds depth) scope := by
  match e, c, h with
  | .grouping inner _, c, h => exact Followed.succ_iff.2 (hg.evaluate scope inner c h)
  | .literal _ _, .literal _ _, ⟨rfl, _⟩ => exact .of_plain (.pure _)
  | .identifier name p, .identifier _ _, ⟨rfl, rfl⟩ =>
    exact .of_plain (lookup_plain scope name p)
  | .assignment name _ p, .assignment _ _ _, ⟨rfl, he, rfl⟩ =>
    refine (hg.evaluate scope _ _ he).bind fun v => ?_
    exact .of_plain ((assign_plain scope name v p).bind fun _ => .pure _)
  | .unary _ _ p, .unary _ _ _, ⟨rfl, he, rfl⟩ =>
    exact (hg.evaluate scope _ _ he).bind fun v => .of_plain (ofExcept_plain p _)
  | .logical _ _ _ _, .logical _ _ _ _, ⟨rfl, hl, hr, _⟩ =>
    refine (hg.evaluate scope _ _ hl).bind fun v => ?_
    split
    · exact .of_plain (.pure _)
    · exact hg.evaluate scope _ _ hr
  | .binary _ _ _ p, .binary _ _ _ _, ⟨rfl, hl, hr, rfl⟩ =>
    refine (hg.evaluate scope _ _ hl).bind fun l => ?_
    exact (hg.evaluate scope _ _ hr).bind fun r => .of_plain (ofExcept_plain p _)
  | .call _ _ p, .call _ _ _, ⟨he, hes, rfl⟩ =>
    refine (hg.evaluate scope _ _ he).bind fun v => ?_
    exact (values_followed (hg.evaluate scope) hes).bind fun vs => hg.call v vs p
  | .stray _, .stray _, rfl => exact .of_plain (.throw _)

theorem Stmt.executeBy_followed (hg : g.Followed rounds) {s s' : Stmt} (h : s.Matches s') :
    (s.executeBy g rounds scope).Followed fun depth =>
      s'.executeBy (engine rounds depth) rounds scope := by
  match s, s', h with
  | .expression _ _, .expression _ _, ⟨he, _⟩ =>
    exact (hg.evaluate scope _ _ he).bind fun _ => .of_plain (.pure _)
  | .print _ _, .print _ _, ⟨he, _⟩ =>
    refine (hg.evaluate scope _ _ he).bind fun v => ?_
    exact .of_plain ((print_plain v).bind fun _ => .pure _)
  | .declaration name o _, .declaration _ o' _, ⟨rfl, ho, _⟩ =>
    have hdefine (v : Value) : Plain (do define scope name v; return Signal.normal) :=
      (define_plain scope name v).bind fun _ => .pure _
    match o, o', ho with
    | none, none, _ => exact .of_plain (hdefine .nil)
    | some _, some _, ho =>
      exact (hg.evaluate scope _ _ (Option.some.inj ho)).bind fun v => .of_plain (hdefine v)
  | .block _ _, .block _ _, ⟨hss, _⟩ =>
    exact .step (openScope_plain scope) fun inner => sequence_followed (hg.execute inner) hss
  | .conditional _ _ o _, .conditional _ _ o' _, ⟨he, hs, ho, _⟩ =>
    refine (hg.evaluate scope _ _ he).bind fun v => ?_
    split
    · exact hg.execute scope _ _ hs
    · match o, o', ho with
      | none, none, _ => exact .of_plain (.pure _)
      | some _, some _, ho => exact hg.execute scope _ _ (Option.some.inj ho)
  | .loop _ _ _, .loop _ _ _, ⟨he, hs, _⟩ =>
    exact repeatWhile_followed (hg.evaluate scope _ _ he) (hg.execute scope _ _ hs) rounds
  | .function name parameters body _, .function _ _ body' _, ⟨rfl, rfl, hs, _⟩ =>
    have hf : Function.ungrouped { name, parameters, body, closure := scope } =
        Function.ungrouped { name, parameters, body := body', closure := scope } := by
      simp [Function.ungrouped, hs]
    exact (declare_followed hf).bind fun _ => .of_plain (.pure _)
  | .result o _, .result o' _, ⟨ho, _⟩ =>
    match o, o', ho with
    | none, none, _ => exact .of_plain (.pure _)
    | some _, some _, ho =>
      exact (hg.evaluate scope _ _ (Option.some.inj ho)).bind fun v => .of_plain (.pure _)
  | .jump _ _, .jump _ _, ⟨rfl, _⟩ => exact .of_plain (.pure _)
  | .stray _ _, .stray _ _, ⟨rfl, _⟩ => exact .of_plain (.throw _)

end

/-! ## All levels -/

/-- A `call` is made by the means that carry out the body. -/
theorem engine_call (rounds depth : Nat) :
    (engine rounds depth).call =
      Run.call (fun signal => return signal.result) (engine rounds depth).execute := by
  cases depth <;> rfl

/-- Whatever the `depth` of a run is, it is followed by runs of code that is equal up to
    groupings. -/
theorem engine_followed (rounds depth : Nat) : (engine rounds depth).Followed rounds := by
  have hcall {depth : Nat}
      (hexecute : ∀ (scope : Nat) (s s' : Stmt), s.ungrouped = s'.ungrouped →
        ((engine rounds depth).execute scope s).Followed fun depth =>
          (engine rounds depth).execute scope s')
      (callee : Value) (arguments : List Value) (p : Position) :
      ((engine rounds depth).call callee arguments p).Followed fun depth =>
        (engine rounds depth).call callee arguments p := by
    simp only [engine_call]
    exact call_followed (fun _ => .pure _) hexecute callee arguments p
  induction depth with
  | zero =>
    exact {
      evaluate := fun _ _ _ _ => .exhausted
      execute := fun _ _ _ _ => .exhausted
      call := hcall fun _ _ _ _ => .exhausted }
  | succ depth ih =>
    have hexecute (scope : Nat) (s s' : Stmt) (h : s.ungrouped = s'.ungrouped) :
        ((engine rounds (depth + 1)).execute scope s).Followed fun depth =>
          (engine rounds depth).execute scope s' :=
      Followed.succ_iff.1 (Stmt.executeBy_followed ih (Stmt.matches_of_ungrouped_eq h))
    exact {
      evaluate := fun _ _ _ h => Expr.evaluate_core_followed
        (Followed.succ_iff.1 (Expr.evaluateBy_followed ih (Expr.matches_core h)))
      execute := hexecute
      call := hcall hexecute }

/-! ## What runs come to -/

/-- Whether the runs `r` and `r'` come to the same, on a machine each, but for groupings. They are
    stopped alike if at all, have written the same and read as far, and leave the same scopes. The
    functions that are kept are equal up to groupings. -/
structure Run.SameButGroupings {α : Type} (r r' : Run α) (m m' : Machine) : Prop where
  stop : r'.stop? m' = r.stop? m
  output : (r'.leaves m').output = (r.leaves m).output
  input : (r'.leaves m').input = (r.leaves m).input
  inputEnd : (r'.leaves m').inputEnd = (r.leaves m).inputEnd
  scopes : (r'.leaves m').scopes = (r.leaves m).scopes
  functions : (r'.leaves m').functions.map Function.ungrouped =
    (r.leaves m).functions.map Function.ungrouped
  journal : (r'.leaves m').journal = (r.leaves m).journal

theorem Run.sameButGroupings_of_ended {α : Type} {r r' : Run α} {m m' : Machine}
    (h : Ended.ungrouped (r'.run m') = Ended.ungrouped (r.run m)) :
    r.SameButGroupings r' m m' := by
  obtain ⟨hstop, hleaves⟩ : r'.stop? m' = r.stop? m ∧
      (r'.leaves m').ungrouped = (r.leaves m).ungrouped := by
    unfold Run.stop? Run.leaves
    revert h
    cases r.run m <;> cases r'.run m' <;> simp_all [Ended.ungrouped]
  obtain ⟨hscopes, hfunctions, hinput, hend, houtput, hjournal⟩ := Machine.mk.inj hleaves
  exact ⟨hstop, houtput, hinput, hend, hscopes, hfunctions, hjournal⟩

/-! ## Programs -/

namespace Program

variable {limits : Limits} {scope : Nat} {p p' : Program} {m m' : Machine}

theorem run_followed (limits : Limits) (scope : Nat) (h : p.ungrouped = p'.ungrouped) :
    (p.run limits scope).Followed fun depth => p'.run { limits with depth } scope := by
  induction p generalizing p' with
  | nil =>
    obtain rfl : p' = [] := by simpa [ungrouped] using h.symm
    exact .of_plain (.pure ())
  | cons s rest ih =>
    obtain ⟨s', rest', rfl, hs, hrest⟩ := List.map_eq_cons_iff.1 h.symm
    exact ((engine_followed limits.rounds limits.depth).execute scope s s' hs.symm).bind fun _ =>
      ih hrest.symm

/-- Where the program `p` has room enough, all programs that are equal to it up to groupings end as
    it does, from some `room` on. -/
theorem exists_room (hp : p.ungrouped = p'.ungrouped) (hm : m.ungrouped = m'.ungrouped)
    {depth : Nat} (h : (p.run { limits with depth } scope).stop? m ≠ some .exhausted) :
    ∃ room, ∀ depth', room ≤ depth' →
      Ended.ungrouped ((p'.run { limits with depth := depth' } scope).run m') =
        Ended.ungrouped ((p.run { limits with depth } scope).run m) := by
  obtain ⟨room, ended, hended, hall⟩ := run_followed { limits with depth } scope hp hm h
  exact ⟨room, fun depth' hdepth => by rw [← hended, ← hall depth' hdepth]⟩

/-- Parentheses only group. Wherever it is run, the program `p` and `p.ungrouped`, on the machine
    that has kept its functions without groupings, come to the same if neither uses up its room.
    There is room enough for the one just if there is for the other. -/
theorem run_ungrouped (limits : Limits) (scope : Nat) (p : Program) (m : Machine) :
    (∀ depth depth' : Nat, (p.run { limits with depth } scope).stop? m ≠ some .exhausted →
      (p.ungrouped.run { limits with depth := depth' } scope).stop? m.ungrouped ≠
        some .exhausted →
      (p.run { limits with depth } scope).SameButGroupings
        (p.ungrouped.run { limits with depth := depth' } scope) m m.ungrouped) ∧
    ((∃ depth, (p.run { limits with depth } scope).stop? m ≠ some .exhausted) ↔
      ∃ depth, (p.ungrouped.run { limits with depth } scope).stop? m.ungrouped ≠
        some .exhausted) := by
  have hp : p.ungrouped = p.ungrouped.ungrouped := p.ungrouped_ungrouped.symm
  have hm : m.ungrouped = m.ungrouped.ungrouped := m.ungrouped_ungrouped.symm
  refine ⟨fun depth depth' h h' => ?_, fun ⟨depth, h⟩ => ?_, fun ⟨depth, h⟩ => ?_⟩
  · obtain ⟨room, hall⟩ := exists_room hp hm h
    refine Run.sameButGroupings_of_ended ?_
    rw [← run_of_depth_le (Nat.le_max_right room depth') h', hall _ (Nat.le_max_left ..)]
  · obtain ⟨room, hall⟩ := exists_room hp hm h
    exact ⟨room, (Run.sameButGroupings_of_ended (hall room (Nat.le_refl _))).stop ▸ h⟩
  · obtain ⟨room, hall⟩ := exists_room hp.symm hm.symm h
    exact ⟨room, (Run.sameButGroupings_of_ended (hall room (Nat.le_refl _))).stop ▸ h⟩

/-- A call of a grouped function, whose body groups something in turn. -/
theorem run_ungrouped_of_call :
    let value : Expr := .grouping (.literal .nil ⟨1, 19⟩) ⟨1, 18⟩
    let body : Stmt := .block [.result (some value) ⟨1, 11⟩] ⟨1, 8⟩
    let callee : Expr := .grouping (.identifier "f" ⟨2, 8⟩) ⟨2, 7⟩
    let p : Program := [.function "f" [] body ⟨1, 1⟩, .print (.call callee [] ⟨2, 10⟩) ⟨2, 1⟩]
    let m := Machine.fresh []
    (p.run ⟨0, 6, 0⟩ 0).stop? m ≠ some .exhausted ∧
      (p.ungrouped.run ⟨0, 4, 0⟩ 0).stop? m.ungrouped ≠ some .exhausted ∧
      (p.run ⟨0, 6, 0⟩ 0).SameButGroupings (p.ungrouped.run ⟨0, 4, 0⟩ 0) m m.ungrouped := by
  intro value body callee p m
  have hnone : (p.run ⟨0, 6, 0⟩ 0).stop? m = none := by cbv
  have hnone' : (p.ungrouped.run ⟨0, 4, 0⟩ 0).stop? m.ungrouped = none := by cbv
  have h : (p.run ⟨0, 6, 0⟩ 0).stop? m ≠ some .exhausted := by simp [hnone]
  have h' : (p.ungrouped.run ⟨0, 4, 0⟩ 0).stop? m.ungrouped ≠ some .exhausted := by
    simp [hnone']
  exact ⟨h, h', (run_ungrouped ⟨0, 0, 0⟩ 0 p m).1 6 4 h h'⟩

/-- A grouping takes up room. -/
example :
    let p : Program := [.print (.grouping (.literal .nil ⟨1, 8⟩) ⟨1, 7⟩) ⟨1, 1⟩]
    (p.run ⟨0, 2, 0⟩ 0).stop? (.fresh []) = some .exhausted ∧
      (p.run ⟨0, 3, 0⟩ 0).stop? (.fresh []) = none ∧
      (p.ungrouped.run ⟨0, 2, 0⟩ 0).stop? (.fresh []) = none := by
  refine ⟨?_, ?_, ?_⟩ <;> cbv

end Program

end Scripting
