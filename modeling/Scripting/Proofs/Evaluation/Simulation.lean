import Scripting.Evaluation
import Scripting.Proofs.Evaluation.Operands
import Scripting.Proofs.Grammar.Correspondence

set_option autoImplicit false

/-! # Two runs side by side

Corresponding code does corresponding things on corresponding machines. When machines correspond is
left open here, up to a few laws, which make a `Simulation` be `Lawful`: what is looked up, bound,
declared, read, written and recorded on both keeps them in correspondence. From these the induction
over evaluation is made once, for runs that differ in their positions, in their scopes or in the
numbers of their functions. A run set beside itself gives what a single run keeps. A run that is
broken off where it asks for input tells of the same run with any input, as long as it is not broken
off. The functions that a value may stand for are those that have been kept so far, so what is
`known` of a value is told relative to how many there are. Running adds functions and takes none
away. A value that is not known never comes about. -/

namespace Scripting

/-- The function `g` with the nodes of its body `placed` elsewhere. -/
def Function.placed (f : Placing) (g : Function) : Function :=
  { g with body := g.body.placed f }

@[simp] theorem Function.placed_id (g : Function) : g.placed id = g := by
  simp [placed]

/-! ## Simulations -/

/-- What it is for two runs to correspond. A function of the first has the number `number id` in the
    second, if a value that stands for it is `known` when so many functions are kept. Names are
    looked up in `visible` scopes and bound in scopes of one's `own`. -/
structure Simulation extends Correspondence where
  state : Machine → Machine → Prop
  stop : Stop → Stop → Prop
  /-- Whether a stop of the first run leaves open what the second does. -/
  lost : Stop → Prop := fun _ => False
  number : Nat → Nat
  known : Nat → Value → Prop
  visible : Nat → Prop
  own : Nat → Prop

namespace Simulation

variable {k : Simulation} {n n' : Nat} {α α' β β' : Type}

/-- Whether the values `v` and `v'` correspond where `n` functions are kept. -/
structure Values (k : Simulation) (n : Nat) (v v' : Value) : Prop where
  known : k.known n v
  eq : v' = v.renumbered k.number

/-- Signals that correspond where `n` functions are kept. -/
inductive Signals (k : Simulation) (n : Nat) : Signal → Signal → Prop
  | normal : Signals k n .normal .normal
  | jump (which : Jump) : Signals k n (.jump which) (.jump which)
  | returned {v v' : Value} (h : k.Values n v v') : Signals k n (.returned v) (.returned v')

/-- Whether the functions `f` and `f'` correspond. -/
structure Functions (k : Simulation) (f f' : Function) : Prop where
  name : f'.name = f.name
  parameters : f'.parameters = f.parameters
  body : f.body.Corresponds k.toCorrespondence f'.body
  closure : f'.closure = f.closure
  visible : k.visible f.closure

/-- Whether two runs ended correspondingly, with `n` functions at least and results that `Q`
    relates, or the first was `lost`. -/
def Ends (k : Simulation) (n : Nat) (Q : Nat → α → α' → Prop) :
    EStateM.Result Stop Machine α → EStateM.Result Stop Machine α' → Prop
  | .ok a m, .ok a' m' => k.state m m' ∧ n ≤ m.functions.size ∧ Q m.functions.size a a'
  | .error e m, .error e' m' => k.lost e ∨ k.state m m' ∧ k.stop e e'
  | .error e _, .ok _ _ => k.lost e
  | .ok _ _, .error _ _ => False

/-- Whether the runs `r` and `r'` end correspondingly on corresponding machines that keep `n`
    functions at least. -/
def Relates (k : Simulation) (n : Nat) (Q : Nat → α → α' → Prop) (r : Run α) (r' : Run α') :
    Prop :=
  ∀ ⦃m m' : Machine⦄, k.state m m' → n ≤ m.functions.size → k.Ends n Q (r.run m) (r'.run m')

/-- The results of runs of which nothing is told. -/
def Any (_ : Nat) (_ : α) (_ : α') : Prop := True

/-- What the simulation `k` has to keep to, but for what is read. -/
structure Steady (k : Simulation) : Prop where
  known_mono : ∀ {n n' : Nat} {v : Value}, n ≤ n' → k.known n v → k.known n' v
  known_of_type : ∀ {v : Value}, v.type ≠ .function → ∀ n, k.known n v
  number_inj : ∀ {n i j : Nat} {name name' : String}, k.known n (.function i name) →
    k.known n (.function j name') → k.number i = k.number j → i = j
  own_visible : ∀ {i : Nat}, k.own i → k.visible i
  literal : ∀ {v v' : Value}, k.literal v v' → ∀ n, k.Values n v v'
  fault : ∀ {cause : Cause} {w : Word} {p p' : Position}, cause.subject? = some w →
    k.point (some w) p p' → k.stop (.fault (.located cause p)) (.fault (.located cause p'))
  stop : ∀ {e : Stop}, (∀ f, e ≠ .fault f) → k.stop e e
  get : ∀ {m m' : Machine} {i : Nat} {name : String} {p p' : Position}, k.state m m' →
    k.visible i → k.point (some (.name name)) p p' →
    Option.Rel (k.Values m.functions.size) (m.scopes.get? i name) (m'.scopes.get? i name)
  assign : ∀ {m m' : Machine} {i : Nat} {v v' : Value}, k.state m m' → k.visible i →
    k.Values m.functions.size v v' → ∀ name,
    Option.Rel (fun t t' => k.state { m with scopes := t } { m' with scopes := t' })
      (m.scopes.assign? i name v) (m'.scopes.assign? i name v')
  define : ∀ {m m' : Machine} {i : Nat} {v v' : Value}, k.state m m' → k.own i →
    k.Values m.functions.size v v' → ∀ name,
    k.state { m with scopes := m.scopes.define i name v }
      { m' with scopes := m'.scopes.define i name v' }
  child : ∀ {m m' : Machine} {i : Nat}, k.state m m' → k.visible i →
    m'.scopes.size = m.scopes.size ∧ k.own m.scopes.size ∧
      k.state { m with scopes := m.scopes.child i } { m' with scopes := m'.scopes.child i }
  keep : ∀ {m m' : Machine} {f f' : Function}, k.state m m' → k.Functions f f' →
    k.state (m.keep f).2 (m'.keep f').2 ∧
      k.Values (m.functions.size + 1) (m.keep f).1 (m'.keep f').1
  function : ∀ {m m' : Machine} {id : Nat} {name : String}, k.state m m' →
    k.known m.functions.size (.function id name) → k.Functions (m.functions[id]?.getD (.idle "" []))
      (m'.functions[k.number id]?.getD (.idle "" []))
  write : ∀ {m m' : Machine}, k.state m m' → ∀ text,
    k.state { m with output := m.output ++ text } { m' with output := m'.output ++ text }
  record : ∀ {m m' : Machine} {p p' : Position}, k.state m m' → k.point (some (.mark "(")) p p' →
    ∀ entry : Position → String, (∀ q, ∃ line, entry q = line ++ "\n") →
    k.state { m with journal := m.journal.map (· ++ entry p) }
      { m' with journal := m'.journal.map (· ++ entry p') }

/-- What the simulation `k` has to keep to. -/
structure Lawful (k : Simulation) : Prop extends k.Steady where
  read : ∀ {m m' : Machine}, k.state m m' → k.known m.functions.size (.builtin .input) →
    (m'.input = m.input ∧ m'.inputEnd = m.inputEnd ∧
      ∀ rest, k.state { m with input := rest } { m' with input := rest }) ∨
    (m.input = [] ∧ m.inputEnd = .interrupts ∧ k.lost .interrupted)

/-! ## Values -/

theorem Values.mono {v v' : Value} (h : k.Values n v v') (hk : k.Steady) (hn : n ≤ n') :
    k.Values n' v v' :=
  ⟨hk.known_mono hn h.known, h.eq⟩

/-- What is no function corresponds to itself. -/
theorem Values.of_type {v : Value} (hk : k.Steady) (h : v.type ≠ .function) : k.Values n v v :=
  ⟨hk.known_of_type h n, (Value.plain_of_type h).renumbered_eq.symm⟩

/-- The functions that are `known` have distinct numbers in the second run too. -/
theorem Steady.binary_renumbered (hk : k.Steady) {op : Operator} {l r : Value}
    (hl : k.known n l) (hr : k.known n r) :
    Operation.binary op (l.renumbered k.number) (r.renumbered k.number) =
      Operation.binary op l r := by
  have hwithin {v : Value} (hv : k.known n v) :
      v.Within fun id => ∃ name, k.known n (.function id name) := by
    cases v with
    | function id name => exact ⟨name, hv⟩
    | _ => trivial
  refine Operation.binary_renumbered ?_ (hwithin hl) (hwithin hr)
  rintro i j ⟨name, hi⟩ ⟨name', hj⟩ hsame
  exact hk.number_inj hi hj hsame

theorem Values.truthy {v v' : Value} (h : k.Values n v v') : v'.truthy = v.truthy := by
  rw [h.eq, Value.truthy_renumbered]

theorem Values.type {v v' : Value} (h : k.Values n v v') : v'.type = v.type := by
  rw [h.eq, Value.type_renumbered]

/-- Corresponding values are `printed` alike. -/
theorem map_printed_of_values {vs vs' : List Value} (h : List.Forall₂ (k.Values n) vs vs') :
    vs'.map Value.printed = vs.map Value.printed := by
  induction h with
  | nil => rfl
  | cons hv _ ih => simp [hv.eq, ih]

theorem forall₂_values_mono {vs vs' : List Value} (h : List.Forall₂ (k.Values n) vs vs')
    (hk : k.Steady) (hn : n ≤ n') : List.Forall₂ (k.Values n') vs vs' :=
  h.imp fun _ _ hv => hv.mono hk hn

theorem Signals.result {signal signal' : Signal} (h : k.Signals n signal signal')
    (hk : k.Steady) : k.Values n signal.result signal'.result := by
  cases h with
  | normal => exact .of_type hk nofun
  | jump which => exact .of_type hk nofun
  | returned hv => exact hv

/-- Functions that differ at most in where the nodes of their bodies are `placed`. -/
theorem Functions.eq_placed {p : Placing} {f f' : Function} (h : k.Functions f f')
    (hk : k.toCorrespondence.Places p) : f' = f.placed p := by
  obtain ⟨name, parameters, body, closure⟩ := f'
  simp only [Function.placed, Function.mk.injEq]
  exact ⟨h.name, h.parameters, Stmt.eq_placed hk h.body, h.closure⟩

/-! ## Runs -/

theorem Ends.of_lost {Q : Nat → α → α' → Prop} {e : Stop} {m : Machine}
    {r' : EStateM.Result Stop Machine α'} (h : k.lost e) : k.Ends n Q (.error e m) r' := by
  cases r' with
  | ok a' m' => exact h
  | error e' m' => exact .inl h

theorem Ends.mono {Q : Nat → α → α' → Prop} {r : EStateM.Result Stop Machine α}
    {r' : EStateM.Result Stop Machine α'} (h : k.Ends n' Q r r') (hn : n ≤ n') :
    k.Ends n Q r r' := by
  cases r with
  | ok a m =>
    cases r' with
    | ok a' m' => exact ⟨h.1, Nat.le_trans hn h.2.1, h.2.2⟩
    | error e' m' => exact h
  | error e m =>
    cases r' with
    | ok a' m' => exact h
    | error e' m' => exact h

namespace Relates

variable {P : Nat → α → α' → Prop} {Q : Nat → β → β' → Prop}

theorem pure {a : α} {a' : α'} (h : ∀ n', n ≤ n' → P n' a a') :
    k.Relates n P (Pure.pure a) (Pure.pure a') :=
  fun _ _ hm hn => ⟨hm, hn, h _ hn⟩

theorem throw {e e' : Stop} (h : k.stop e e') :
    k.Relates n P (MonadExcept.throw e : Run α) (MonadExcept.throw e' : Run α') :=
  fun _ _ hm _ => .inr ⟨hm, h⟩

theorem bind {r : Run α} {r' : Run α'} {f : α → Run β} {f' : α' → Run β'} (h : k.Relates n P r r')
    (hf : ∀ n', n ≤ n' → ∀ a a', P n' a a' → k.Relates n' Q (f a) (f' a')) :
    k.Relates n Q (r >>= f) (r' >>= f') := by
  intro m m' hm hn
  have hr := h hm hn
  rw [EStateM.run_bind, EStateM.run_bind]
  cases hrun : r.run m with
  | ok a m₁ =>
    cases hrun' : r'.run m' with
    | ok a' m₁' =>
      rw [hrun, hrun'] at hr
      obtain ⟨hm₁, hn₁, ha⟩ := hr
      -- the second run begins with the functions that are kept behind the first
      exact (hf _ hn₁ a a' ha hm₁ (Nat.le_refl _)).mono hn₁
    | error e' m₁' => rw [hrun, hrun'] at hr; exact hr.elim
  | error e m₁ =>
    cases hrun' : r'.run m' with
    | ok a' m₁' => rw [hrun, hrun'] at hr; exact .of_lost hr
    | error e' m₁' => rw [hrun, hrun'] at hr; exact hr

theorem modify {g g' : Machine → Machine}
    (h : ∀ m m', k.state m m' → n ≤ m.functions.size →
      k.state (g m) (g' m') ∧ (g m).functions.size = m.functions.size) :
    k.Relates n Any (modify g : Run Unit) (modify g' : Run Unit) :=
  fun _ _ hm hn => ⟨(h _ _ hm hn).1, (h _ _ hm hn).2 ▸ hn, trivial⟩

end Relates

end Simulation

namespace Run

open Simulation

variable {k : Simulation} {n : Nat} {scope : Nat}

/-! ## Faults -/

theorem fail_relates {α α' : Type} (hk : k.Steady) {Q : Nat → α → α' → Prop} {cause : Cause}
    {w : Word} (hsubject : cause.subject? = some w) {p p' : Position}
    (hp : k.point (some w) p p') : k.Relates n Q (fail cause p) (fail cause p') :=
  .throw (hk.fault hsubject hp)

theorem misplaced_relates {α α' : Type} (hk : k.Steady) {Q : Nat → α → α' → Prop} (m : Misplaced) :
    k.Relates n Q (throw (.misplaced m) : Run α) (throw (.misplaced m) : Run α') :=
  .throw (hk.stop fun _ h => nomatch h)

/-- An operation whose faults are about the word `w` that stands at the position. -/
theorem ofExcept_relates (hk : k.Steady) {w : Word} {p p' : Position}
    (hp : k.point (some w) p p') {result : Except Hindrance Value}
    (htype : ∀ {v : Value}, result = .ok v → v.type ≠ .function)
    (hsubject : ∀ {cause : Cause}, result = .error (.fault cause) → cause.subject? = some w) :
    k.Relates n k.Values (ofExcept p result) (ofExcept p' result) := by
  cases result with
  | ok v => exact .pure fun _ _ => .of_type hk (htype rfl)
  | error hindrance =>
    cases hindrance with
    | fault cause => exact fail_relates hk (hsubject rfl) hp
    | misplaced m => exact misplaced_relates hk m

/-! ## Scopes and functions -/

theorem openScope_relates (hk : k.Steady) (hscope : k.visible scope) :
    k.Relates n (fun _ i i' => i' = i ∧ k.own i) (openScope scope) (openScope scope) := by
  intro m m' hm hn
  obtain ⟨hsize, hown, hstate⟩ := hk.child hm hscope
  exact ⟨hstate, hn, hsize, hown⟩

theorem define_relates (hk : k.Steady) (hscope : k.own scope) (name : String) {v v' : Value}
    (hv : k.Values n v v') : k.Relates n Any (define scope name v) (define scope name v') :=
  .modify fun _ _ hm hn => ⟨hk.define hm hscope (hv.mono hk hn) name, rfl⟩

theorem defineAll_relates (hk : k.Steady) (hscope : k.own scope) {vs vs' : List Value}
    (hvs : List.Forall₂ (k.Values n) vs vs') (names : List String) :
    k.Relates n Any (defineAll scope names vs) (defineAll scope names vs') := by
  induction names generalizing n vs vs' with
  | nil => exact .pure fun _ _ => trivial
  | cons name names ih =>
    cases hvs with
    | nil => exact .pure fun _ _ => trivial
    | cons hv hvs =>
      exact (define_relates hk hscope name hv).bind fun _ hn _ _ _ =>
        ih (forall₂_values_mono hvs hk hn)

theorem lookup_relates (hk : k.Steady) (hscope : k.visible scope) (name : String)
    {p p' : Position} (hp : k.point (some (.name name)) p p') :
    k.Relates n k.Values (lookup scope name p) (lookup scope name p') := by
  intro m m' hm hn
  have hget := hk.get hm hscope hp
  have hfail : k.Relates n k.Values (fail (.undefinedVariable name) p)
      (fail (.undefinedVariable name) p') := fail_relates hk rfl hp
  simp only [lookup, EStateM.run_bind, EStateM.run_get]
  revert hget
  cases m.scopes.get? scope name <;> cases m'.scopes.get? scope name <;> intro hget <;> cases hget
  · exact hfail hm hn
  · rename_i hv
    exact ⟨hm, hn, hv⟩

theorem assign_relates (hk : k.Steady) (hscope : k.visible scope) (name : String) {v v' : Value}
    (hv : k.Values n v v') {p p' : Position} (hp : k.point (some (.name name)) p p') :
    k.Relates n Any (assign scope name v p) (assign scope name v' p') := by
  intro m m' hm hn
  have hassign := hk.assign hm hscope (hv.mono hk hn) name
  have hfail : k.Relates n Any (fail (.undefinedVariable name) p : Run Unit)
      (fail (.undefinedVariable name) p' : Run Unit) := fail_relates hk rfl hp
  simp only [assign, EStateM.run_bind, EStateM.run_get]
  unfold ScopeTree.assign? at hassign
  revert hassign
  cases m.scopes.resolve name scope <;> cases m'.scopes.resolve name scope <;> intro hassign <;>
    cases hassign
  · exact hfail hm hn
  · rename_i hstate
    exact ⟨hstate, hn, trivial⟩

theorem declare_relates (hk : k.Steady) {f f' : Function} (hf : k.Functions f f')
    (hscope : k.own f.closure) : k.Relates n Any (declare f) (declare f') := by
  have hkeep : k.Relates n k.Values (modifyGet (·.keep f) : Run Value)
      (modifyGet (·.keep f') : Run Value) := by
    intro m m' hm hn
    obtain ⟨hstate, hvalue⟩ := hk.keep hm hf
    have hsize : m.functions.size + 1 = (m.keep f).2.functions.size := (Array.size_push ..).symm
    exact ⟨hstate, Nat.le_trans (Nat.le_succ_of_le hn) (Nat.le_of_eq hsize), hsize ▸ hvalue⟩
  refine hkeep.bind fun _ _ v v' hv => ?_
  rw [hf.closure, hf.name]
  exact define_relates hk hscope f.name hv

theorem function_relates (hk : k.Steady) {id : Nat} {name : String}
    (hid : k.known n (.function id name)) :
    k.Relates n (fun _ => k.Functions) (function id) (function (k.number id)) :=
  fun _ _ hm hn => ⟨hm, hn, hk.function hm (hk.known_mono hn hid)⟩

/-! ## Input and output -/

theorem write_relates (hk : k.Steady) (text : String) :
    k.Relates n Any (write text) (write text) :=
  .modify fun _ _ hm _ => ⟨hk.write hm text, rfl⟩

theorem print_relates (hk : k.Steady) {v v' : Value} (hv : k.Values n v v') :
    k.Relates n Any (print v) (print v') := by
  unfold print
  rw [hv.type, hv.eq, Value.printed?_renumbered]
  split
  · exact write_relates hk _
  · exact misplaced_relates hk _

theorem record_relates (hk : k.Steady) (name : String) {vs vs' : List Value}
    (hvs : List.Forall₂ (k.Values n) vs vs') {p p' : Position}
    (hp : k.point (some (.mark "(")) p p') :
    k.Relates n Any (record name vs p) (record name vs' p') := by
  obtain ⟨entry, hentry, hrecord⟩ : ∃ entry : Position → String,
      (∀ q, ∃ line, entry q = line ++ "\n") ∧ ∀ (q : Position) (m : Machine),
        (record name vs q).run m = .ok () { m with journal := m.journal.map (· ++ entry q) } := by
    let arguments := String.intercalate ", " (vs.map Value.printed)
    refine ⟨fun q => s!"SprigInterpreter: call {name}({arguments}) on line {q.line}\n",
      fun q => ⟨_, rfl⟩, fun q m => ?_⟩
    obtain ⟨scopes, functions, input, inputEnd, output, journal⟩ := m
    cases journal <;> rfl
  have hsame : record name vs' p' = record name vs p' := by
    simp only [record, map_printed_of_values hvs]
  intro m m' hm hn
  rw [hsame, hrecord, hrecord]
  exact ⟨hk.record hm hp entry hentry, hn, trivial⟩

theorem readLine_relates (hk : k.Lawful) (hinput : k.known n (.builtin .input)) :
    k.Relates n (fun _ line line' => line' = line) readLine readLine := by
  intro m m' hm hn
  rcases hk.read hm (hk.known_mono hn hinput) with ⟨hinput, hend, hread⟩ | ⟨hinput, hend, hlost⟩
  · have hrest := hread (Text.takeLine m.input).2
    rw [hend] at hrest
    simp only [readLine, EStateM.run_bind, EStateM.run_get, hinput, hend]
    split
    · exact .inr ⟨hm, hk.stop fun _ h => nomatch h⟩
    · exact ⟨hrest, hn, rfl⟩
  · -- there is nothing to read in the first run, and it is broken off
    have hbroken : readLine.run m = .error .interrupted m := by
      simp [readLine, EStateM.run_bind, EStateM.run_get, hinput, hend, Text.takeLine]
    rw [hbroken]
    exact .of_lost hlost

/-- A line of input stands for no function. -/
theorem type_inputValue (line : List Char) : (inputValue line).type ≠ .function := by
  unfold inputValue
  simp only
  split <;> nofun

theorem askLine_relates (hk : k.Lawful) (hinput : k.known n (.builtin .input)) :
    k.Relates n k.Values askLine askLine := by
  refine (write_relates hk.toSteady _).bind fun _ hn _ _ _ => ?_
  refine (readLine_relates hk (hk.known_mono hn hinput)).bind fun _ _ line line' hline => ?_
  subst hline
  refine .pure fun _ _ => .of_type hk.toSteady ?_
  split
  · nofun
  · exact type_inputValue line'

theorem apply_relates (hk : k.Lawful) {b : Builtin} (hb : k.known n (.builtin b))
    {vs vs' : List Value} (hvs : List.Forall₂ (k.Values n) vs vs') :
    k.Relates n k.Values (b.apply vs) (b.apply vs') := by
  cases hvs with
  | nil =>
    cases b with
    | input => exact askLine_relates hk hb
  | cons hv hvs =>
    simp only [Builtin.apply, List.length_cons, hvs.length_eq]
    exact misplaced_relates hk.toSteady _

end Run

end Scripting
