import Scripting.Proofs.Evaluation.Simulation
import Scripting.Session

set_option autoImplicit false

/-! # Corresponding code runs in lockstep

On corresponding machines, corresponding parts of a program are evaluated or executed to
corresponding ends, in as many steps, whatever the bounds of the run are: a `Simulation` that is
`Lawful` relates each `engine` to itself. The induction is on the levels of evaluation; one level is
a case analysis of the tree, and the part of it that repeats something is an induction of its
own. -/

namespace Scripting

open Simulation

variable {k : Simulation} {n : Nat}

/-- Corresponding statements are of one `kind`. -/
theorem Stmt.Corresponds.kind_eq {c : Correspondence} {s s' : Stmt} (h : s.Corresponds c s') :
    s'.kind = s.kind := by
  match s, s', h with
  | .expression _ _, .expression _ _, _ => rfl
  | .declaration _ _ _, .declaration _ _ _, _ => rfl
  | .block _ _, .block _ _, _ => rfl
  | .conditional _ _ _ _, .conditional _ _ _ _, _ => rfl
  | .loop _ _ _, .loop _ _ _, _ => rfl
  | .function _ _ _ _, .function _ _ _ _, _ => rfl
  | .result _ _, .result _ _, _ => rfl
  | .print _ _, .print _ _, _ => rfl
  | .jump which _, .jump _ _, ⟨hwhich, _⟩ => subst hwhich; cases which <;> rfl
  | .stray _ _, .stray _ _, ⟨hkind, _⟩ => exact hkind.symm

theorem Stmt.Corresponds.exists_block {c : Correspondence} {ss : List Stmt} {p : Position}
    {s' : Stmt} (h : (Stmt.block ss p).Corresponds c s') :
    ∃ ss' p', s' = .block ss' p' ∧ Stmt.AllCorrespond c ss ss' := by
  match s', h with
  | .block ss' p', ⟨hss, _⟩ => exact ⟨ss', p', rfl, hss⟩

theorem Stmt.Corresponds.exists_block_left {c : Correspondence} {ss' : List Stmt} {p' : Position}
    {s : Stmt} (h : s.Corresponds c (.block ss' p')) : ∃ ss p, s = .block ss p := by
  match s, h with
  | .block ss p, _ => exact ⟨ss, p, rfl⟩

namespace Run

/-! ## Sequences, loops and calls -/

theorem sequence_relates (hk : k.Steady) {execute execute' : Stmt → Run Signal}
    (h : ∀ {n s s'}, s.Corresponds k.toCorrespondence s' →
      k.Relates n k.Signals (execute s) (execute' s'))
    {ss ss' : List Stmt} (hss : Stmt.AllCorrespond k.toCorrespondence ss ss') :
    k.Relates n k.Signals (sequence execute ss) (sequence execute' ss') := by
  induction Stmt.allCorrespond_iff.1 hss generalizing n with
  | nil => exact .pure fun _ _ => .normal
  | cons hs hrest ih =>
    refine (h hs).bind fun n' hn signal signal' hsignal => ?_
    -- every signal but the normal one is that of the sequence
    cases hsignal with
    | normal => exact ih (Stmt.allCorrespond_iff.2 hrest)
    | jump which => exact .pure fun _ _ => .jump which
    | returned hv => exact .pure fun _ hn => .returned (hv.mono hk hn)

theorem values_relates (hk : k.Steady) {evaluate evaluate' : Expr → Run Value}
    (h : ∀ {n e e'}, e.Corresponds k.toCorrespondence e' →
      k.Relates n k.Values (evaluate e) (evaluate' e'))
    {es es' : List Expr} (hes : Expr.AllCorrespond k.toCorrespondence es es') :
    k.Relates n (fun n => List.Forall₂ (k.Values n)) (values evaluate es)
      (values evaluate' es') := by
  induction Expr.allCorrespond_iff.1 hes generalizing n with
  | nil => exact .pure fun _ _ => .nil
  | cons he hrest ih =>
    refine (h he).bind fun _ _ v v' hv => ?_
    refine (ih (Expr.allCorrespond_iff.2 hrest)).bind fun _ hn vs vs' hvs => ?_
    exact .pure fun _ hn' =>
      .cons (hv.mono hk (Nat.le_trans hn hn')) (forall₂_values_mono hvs hk hn')

theorem repeatWhile_relates (hk : k.Steady) {test test' : Run Value} {body body' : Run Signal}
    (htest : ∀ n, k.Relates n k.Values test test')
    (hbody : ∀ n, k.Relates n k.Signals body body') (rounds : Nat) :
    k.Relates n k.Signals (repeatWhile test body rounds) (repeatWhile test' body' rounds) := by
  induction rounds generalizing n with
  | zero => exact .throw (hk.stop fun _ h => nomatch h)
  | succ rounds ih =>
    refine (htest n).bind fun _ _ v v' hv => ?_
    rw [hv.truthy]
    split
    · refine (hbody _).bind fun _ _ signal signal' hsignal => ?_
      cases hsignal with
      | normal => exact ih
      | jump which =>
        cases which with
        | leave => exact .pure fun _ _ => .normal
        | again => exact ih
      | returned hv => exact .pure fun _ hn => .returned (hv.mono hk hn)
    · exact .pure fun _ _ => .normal

/-- Bodies of corresponding functions are carried out in a new scope, where `execute` and `execute'`
    relate them. -/
theorem enter_relates (hk : k.Steady) {execute execute' : Nat → Stmt → Run Signal}
    (h : ∀ {n scope s s'}, k.own scope → s.Corresponds k.toCorrespondence s' →
      k.Relates n k.Signals (execute scope s) (execute' scope s'))
    {f f' : Function} (hf : k.Functions f f') {vs vs' : List Value}
    (hvs : List.Forall₂ (k.Values n) vs vs') :
    k.Relates n k.Signals (enter execute f vs) (enter execute' f' vs') := by
  unfold enter
  rw [hf.closure, hf.parameters]
  refine (openScope_relates hk hf.visible).bind fun _ hn scope scope' hscope => ?_
  obtain ⟨rfl, hown⟩ := hscope
  refine (defineAll_relates hk hown (forall₂_values_mono hvs hk hn) f.parameters).bind
    fun _ _ _ _ _ => ?_
  split
  · rename_i ss q hs
    obtain ⟨ss', q', hs', hss⟩ := (hs ▸ hf.body).exists_block
    rw [hs']
    exact sequence_relates hk (h hown) hss
  · rename_i hnot
    split
    · rename_i ss' q' hs'
      obtain ⟨ss, q, hs⟩ := (hs' ▸ hf.body).exists_block_left
      exact (hnot ss q hs).elim
    · rw [hf.body.kind_eq]
      exact misplaced_relates hk _

/-- Corresponding values are called alike if what is builtin is applied alike, as `happly` says. -/
theorem call_relates (hk : k.Steady) {execute execute' : Nat → Stmt → Run Signal}
    (h : ∀ {n scope s s'}, k.own scope → s.Corresponds k.toCorrespondence s' →
      k.Relates n k.Signals (execute scope s) (execute' scope s'))
    {v v' : Value} (hv : k.Values n v v') {vs vs' : List Value}
    (hvs : List.Forall₂ (k.Values n) vs vs') {p p' : Position}
    (hp : k.point (some (.mark "(")) p p')
    (happly : ∀ b, v = .builtin b → vs.length = b.arity →
      k.Relates n k.Values (b.apply vs) (b.apply vs')) :
    k.Relates n k.Values (call (fun signal => return signal.result) execute v vs p)
      (call (fun signal => return signal.result) execute' v' vs' p') := by
  obtain ⟨hknown, rfl⟩ := hv
  cases v with
  | builtin b =>
    simp only [call, Value.renumbered, ← hvs.length_eq]
    split
    · rename_i hlength
      exact happly b rfl hlength
    · exact fail_relates hk rfl hp
  | function id name =>
    refine (function_relates hk hknown).bind fun _ hn f f' hf => ?_
    simp only [hf.name, hf.parameters, hvs.length_eq]
    split
    · refine (record_relates hk f.name (forall₂_values_mono hvs hk hn) hp).bind
        fun _ hn' _ _ _ => ?_
      refine (enter_relates hk h hf (forall₂_values_mono hvs hk (Nat.le_trans hn hn'))).bind
        fun _ _ signal signal' hsignal => ?_
      exact .pure fun _ hn => (hsignal.result hk).mono hk hn
    · exact fail_relates hk rfl hp
  | _ => exact fail_relates hk rfl hp

end Run

open Run

/-! ## One level -/

/-- Whether the parts of two runs that contain one another, `g` and `g'`, relate corresponding
    code. -/
structure Engine.Relates (k : Simulation) (g g' : Engine) : Prop where
  evaluate : ∀ {n scope : Nat} {e e' : Expr}, k.visible scope →
    e.Corresponds k.toCorrespondence e' →
    k.Relates n k.Values (g.evaluate scope e) (g'.evaluate scope e')
  execute : ∀ {n scope : Nat} {s s' : Stmt}, k.own scope → s.Corresponds k.toCorrespondence s' →
    k.Relates n k.Signals (g.execute scope s) (g'.execute scope s')
  call : ∀ {n : Nat} {v v' : Value} {vs vs' : List Value} {p p' : Position}, k.Values n v v' →
    List.Forall₂ (k.Values n) vs vs' → k.point (some (.mark "(")) p p' →
    k.Relates n k.Values (g.call v vs p) (g'.call v' vs' p')

theorem Expr.evaluateBy_relates (hk : k.Steady) {g g' : Engine} (hg : g.Relates k g')
    {scope : Nat} (hscope : k.visible scope) {e e' : Expr}
    (h : e.Corresponds k.toCorrespondence e') :
    k.Relates n k.Values (e.evaluateBy g scope) (e'.evaluateBy g' scope) := by
  match e, e', h with
  | .literal _ _, .literal _ _, ⟨hv, _⟩ => exact .pure fun n' _ => hk.literal hv n'
  | .grouping _ _, .grouping _ _, ⟨he, _⟩ => exact hg.evaluate hscope he
  | .identifier name _, .identifier _ _, ⟨rfl, hp⟩ => exact lookup_relates hk hscope name hp
  | .assignment name _ _, .assignment _ _ _, ⟨rfl, he, hp⟩ =>
    refine (hg.evaluate hscope he).bind fun _ _ v v' hv => ?_
    refine (assign_relates hk hscope name hv hp).bind fun _ hn _ _ _ => ?_
    exact .pure fun _ hn' => hv.mono hk (Nat.le_trans hn hn')
  | .unary op _ _, .unary _ _ _, ⟨rfl, he, hp⟩ =>
    refine (hg.evaluate hscope he).bind fun _ _ v v' hv => ?_
    rw [hv.eq, Operation.negate_renumbered]
    exact ofExcept_relates hk hp Operation.type_of_negate Operation.subject_of_negate
  | .logical op _ _ _, .logical _ _ _ _, ⟨rfl, hl, hr, _⟩ =>
    refine (hg.evaluate hscope hl).bind fun _ _ v v' hv => ?_
    obtain ⟨hknown, rfl⟩ := hv
    rw [Operation.decides_renumbered]
    split
    · exact .pure fun _ hn => Values.mono ⟨hknown, rfl⟩ hk hn
    · exact hg.evaluate hscope hr
  | .binary op _ _ _, .binary _ _ _ _, ⟨rfl, hl, hr, hp⟩ =>
    refine (hg.evaluate hscope hl).bind fun _ _ l l' hl => ?_
    refine (hg.evaluate hscope hr).bind fun _ hn r r' hr => ?_
    have hl := hl.mono hk hn
    rw [hl.eq, hr.eq, hk.binary_renumbered hl.known hr.known]
    exact ofExcept_relates hk hp Operation.type_of_binary Operation.subject_of_binary
  | .call _ _ _, .call _ _ _, ⟨he, hes, hp⟩ =>
    refine (hg.evaluate hscope he).bind fun _ _ v v' hv => ?_
    refine (values_relates hk (hg.evaluate hscope) hes).bind fun _ hn vs vs' hvs => ?_
    exact hg.call (hv.mono hk hn) hvs hp
  | .stray written, .stray _, rfl => exact misplaced_relates hk _

/-- A `block` is executed in a scope of its own, so it can stand where nothing may be bound: its
    scope need only be `visible`. -/
theorem Stmt.executeBy_block_relates (hk : k.Steady) {g g' : Engine} (hg : g.Relates k g')
    (rounds : Nat) {scope : Nat} (hscope : k.visible scope) {ss ss' : List Stmt}
    (h : Stmt.AllCorrespond k.toCorrespondence ss ss') (p p' : Position) :
    k.Relates n k.Signals ((Stmt.block ss p).executeBy g rounds scope)
      ((Stmt.block ss' p').executeBy g' rounds scope) := by
  refine (openScope_relates hk hscope).bind fun _ _ inner inner' hinner => ?_
  obtain ⟨rfl, hown⟩ := hinner
  exact sequence_relates hk (hg.execute hown) h

theorem Stmt.executeBy_relates (hk : k.Steady) {g g' : Engine} (hg : g.Relates k g')
    (rounds : Nat) {scope : Nat} (hscope : k.own scope) {s s' : Stmt}
    (h : s.Corresponds k.toCorrespondence s') :
    k.Relates n k.Signals (s.executeBy g rounds scope) (s'.executeBy g' rounds scope) := by
  have hvisible := hk.own_visible hscope
  match s, s', h with
  | .expression _ _, .expression _ _, ⟨he, _⟩ =>
    exact (hg.evaluate hvisible he).bind fun _ _ _ _ _ => .pure fun _ _ => .normal
  | .print _ _, .print _ _, ⟨he, _⟩ =>
    refine (hg.evaluate hvisible he).bind fun _ _ v v' hv => ?_
    exact (print_relates hk hv).bind fun _ _ _ _ _ => .pure fun _ _ => .normal
  | .declaration name o _, .declaration _ o' _, ⟨rfl, ho, _⟩ =>
    have hdefine : ∀ {n v v'}, k.Values n v v' → k.Relates n k.Signals
        (do define scope name v; return .normal) (do define scope name v'; return .normal) :=
      fun hv => (define_relates hk hscope name hv).bind fun _ _ _ _ _ => .pure fun _ _ => .normal
    cases ho with
    | none =>
      refine Relates.bind (P := k.Values) (.pure fun _ _ => .of_type hk nofun) fun _ _ _ _ hv => ?_
      exact hdefine hv
    | some he => exact (hg.evaluate hvisible he).bind fun _ _ _ _ hv => hdefine hv
  | .block _ _, .block _ _, ⟨hss, _⟩ => exact executeBy_block_relates hk hg rounds hvisible hss _ _
  | .conditional _ _ o _, .conditional _ _ o' _, ⟨he, hs, ho, _⟩ =>
    refine (hg.evaluate hvisible he).bind fun _ _ v v' hv => ?_
    rw [hv.truthy]
    split
    · exact hg.execute hscope hs
    · match o, o', ho with
      | none, none, _ => exact .pure fun _ _ => .normal
      | some _, some _, ho => exact hg.execute hscope ho
  | .loop _ _ _, .loop _ _ _, ⟨he, hs, _⟩ =>
    exact repeatWhile_relates hk (fun _ => hg.evaluate hvisible he)
      (fun _ => hg.execute hscope hs) rounds
  | .function name parameters body _, .function _ _ body' _, ⟨rfl, rfl, hs, _⟩ =>
    have hf : k.Functions { name, parameters, body, closure := scope }
        { name, parameters, body := body', closure := scope } := ⟨rfl, rfl, hs, rfl, hvisible⟩
    exact (declare_relates hk hf hscope).bind fun _ _ _ _ _ => .pure fun _ _ => .normal
  | .result _ _, .result _ _, ⟨ho, _⟩ =>
    cases ho with
    | none => exact .pure fun _ _ => .returned (.of_type hk nofun)
    | some he =>
      refine (hg.evaluate hvisible he).bind fun _ _ v v' hv => ?_
      exact .pure fun _ hn => .returned (hv.mono hk hn)
  | .jump which _, .jump _ _, ⟨rfl, _⟩ => exact .pure fun _ _ => .jump which
  | .stray _ _, .stray _ _, ⟨rfl, _⟩ => exact misplaced_relates hk _

/-! ## All levels -/

/-- Corresponding code runs in lockstep, for all `rounds` and every `depth`. -/
theorem engine_relates (hk : k.Lawful) (rounds depth : Nat) :
    (engine rounds depth).Relates k (engine rounds depth) := by
  have happly {n : Nat} {v v' : Value} {vs vs' : List Value} (hv : k.Values n v v')
      (hvs : List.Forall₂ (k.Values n) vs vs') (b : Builtin) (hb : v = .builtin b)
      (_ : vs.length = b.arity) : k.Relates n k.Values (b.apply vs) (b.apply vs') :=
    apply_relates hk (hb ▸ hv.known) hvs
  unfold engine
  induction depth with
  | zero =>
    have hexhausted : k.stop .exhausted .exhausted := hk.stop fun _ h => nomatch h
    exact {
      evaluate := fun _ _ => .throw hexhausted
      execute := fun _ _ => .throw hexhausted
      call := fun hv hvs hp =>
        call_relates hk.toSteady (fun _ _ => .throw hexhausted) hv hvs hp (happly hv hvs) }
  | succ depth ih =>
    exact {
      evaluate := fun hscope h => Expr.evaluateBy_relates hk.toSteady ih hscope h
      execute := fun hscope h => Stmt.executeBy_relates hk.toSteady ih rounds hscope h
      call := fun hv hvs hp => call_relates hk.toSteady
        (fun hscope h => Stmt.executeBy_relates hk.toSteady ih rounds hscope h) hv hvs hp
        (happly hv hvs) }

/-- A `block` may stand where nothing may be bound. -/
theorem Stmt.execute_block_relates (hk : k.Lawful) (rounds depth : Nat) {scope : Nat}
    (hscope : k.visible scope) {ss ss' : List Stmt} {p p' : Position}
    (h : Stmt.AllCorrespond k.toCorrespondence ss ss') :
    k.Relates n k.Signals ((Stmt.block ss p).execute rounds depth scope)
      ((Stmt.block ss' p').execute rounds depth scope) := by
  cases depth with
  | zero => exact .throw (hk.stop fun _ h => nomatch h)
  | succ depth =>
    have hlevel := engine_relates hk rounds depth
    exact executeBy_block_relates hk.toSteady hlevel rounds hscope h p p'

/-! ## Programs -/

/-- Run the statements of a program in the scope by the means of `g`. -/
def Program.runBy (g : Engine) (scope : Nat) : Program → Run Unit
  | [] => return ()
  | s :: rest => do
    let _ ← g.execute scope s
    runBy g scope rest

theorem Program.runBy_engine (limits : Limits) (scope : Nat) (p : Program) :
    p.runBy (engine limits.rounds limits.depth) scope = p.run limits scope := by
  induction p with
  | nil => rfl
  | cons s rest ih =>
    rw [runBy, run, ih]
    rfl

theorem Program.runBy_relates {g g' : Engine} (hg : g.Relates k g') {scope : Nat}
    (hscope : k.own scope) {p p' : Program} (h : p.Corresponds k.toCorrespondence p') :
    k.Relates n Any (p.runBy g scope) (p'.runBy g' scope) := by
  induction h generalizing n with
  | nil => exact .pure fun _ _ => trivial
  | cons hs _ ih => exact (hg.execute hscope hs).bind fun _ _ _ _ _ => ih

theorem Program.run_relates (hk : k.Lawful) (limits : Limits) {scope : Nat}
    (hscope : k.own scope) {p p' : Program} (h : p.Corresponds k.toCorrespondence p') :
    k.Relates n Any (p.run limits scope) (p'.run limits scope) := by
  rw [← runBy_engine, ← runBy_engine]
  exact runBy_relates (engine_relates hk limits.rounds limits.depth) hscope h

end Scripting
