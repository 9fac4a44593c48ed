import Scripting.Proofs.Scope.Encapsulation
import Scripting.Proofs.Scope.Rooted

set_option autoImplicit false

/-! # The heap of a machine

Scopes hold functions, and functions hold the scopes they were declared in, so there may be cycles
between them; there are none along the scopes that lie inside one another. A run keeps the heap
`Machine.Formed` wherever it is and however it ends: new scopes lie inside scopes that are there,
and new functions hold such. It also takes nothing away, so whatever has been in place stays there.
How many scopes and functions there are, the `Machine.extent`, tells which of them are there. A run
is told of what was there at its beginning, and tells of what is there at its end. To say so of all
places of a run at once, the run is compared with one that looks at the heap everywhere. -/

namespace Scripting

/-! ## Well-formed heaps -/

/-- Whether a value, if it is a function, is kept on the machine `m` and holds a scope of it. -/
def Value.HeldBy (m : Machine) : Value → Prop
  | .function id _ => ∃ f, m.functions[id]? = some f ∧ f.closure < m.scopes.size
  | _ => True

/-- What the heap of the machine `m` comes to. Ways outward have no cycles, lead from younger scopes
    to older ones, and end at the outermost scope; functions that are bound hold scopes of the same
    tree; and a search for a name ends, wherever it begins. -/
structure Machine.Orderly (m : Machine) : Prop where
  acyclic : ∀ i, ¬ Relation.TransGen m.scopes.Inside i i
  older : ∀ {i j : Nat}, Relation.TransGen m.scopes.Inside i j → j < i
  rooted : ∀ i < m.scopes.size, Relation.ReflTransGen m.scopes.Inside i Machine.globals
  outermost : ∀ p, ¬ m.scopes.Inside Machine.globals p
  bound : ∀ {i : Nat} {s : Scope} {v : Value}, m.scopes.scopes[i]? = some s → s.Binds v →
    v.HeldBy m
  search : ∀ name, ∀ i < m.scopes.size, m.scopes.Finds name i (m.scopes.resolve name i)

/-- Whether the heap of the machine `m` is well-formed: the scopes make a tree with one root,
    functions that are bound in them are kept on the machine, and functions that are kept hold
    scopes of the tree and are made of code without functions in it. -/
structure Machine.Formed (m : Machine) : Prop where
  tree : m.scopes.Rooted
  bound : m.Intact
  closures : ∀ f ∈ m.functions, f.closure < m.scopes.size
  code : m.FunctionFree

/-- Whether the later machine `m'` has all scopes of `m`, each where it was, and all functions. -/
structure Machine.Grows (m m' : Machine) : Prop where
  scopes : m.scopes.Keeps m'.scopes
  functions : ∀ {id : Nat} {f : Function}, m.functions[id]? = some f → m'.functions[id]? = some f

/-- A number of scopes, and one of functions. -/
structure Extent where
  scopes : Nat
  functions : Nat

namespace Extent

instance : LE Extent :=
  ⟨fun e e' => e.scopes ≤ e'.scopes ∧ e.functions ≤ e'.functions⟩

variable {e e' e'' : Extent} {v : Value}

theorem le_refl (e : Extent) : e ≤ e :=
  ⟨Nat.le_refl _, Nat.le_refl _⟩

theorem le_trans (h : e ≤ e') (h' : e' ≤ e'') : e ≤ e'' :=
  ⟨Nat.le_trans h.1 h'.1, Nat.le_trans h.2 h'.2⟩

/-- Whether a value is no function, or one of so many as `e` tells. -/
def Knows (e : Extent) (v : Value) : Prop :=
  v.Within (· < e.functions)

theorem Knows.mono (h : e.Knows v) (he : e ≤ e') : e'.Knows v :=
  Value.Within.mono h fun _ hid => Nat.lt_of_lt_of_le hid he.2

/-- Whether a signal carries no value but one that `e` knows. -/
def KnowsSignal (e : Extent) : Signal → Prop
  | .returned v => e.Knows v
  | _ => True

theorem KnowsSignal.result {signal : Signal} (h : e.KnowsSignal signal) :
    e.Knows signal.result := by
  cases signal with
  | returned v => exact h
  | _ => trivial

end Extent

namespace Machine

variable {m m' m'' : Machine}

/-- How many scopes and functions a machine has. -/
def extent (m : Machine) : Extent :=
  ⟨m.scopes.size, m.functions.size⟩

namespace Grows

theorem refl (m : Machine) : m.Grows m :=
  ⟨.refl _, id⟩

theorem trans (h : m.Grows m') (h' : m'.Grows m'') : m.Grows m'' :=
  ⟨h.scopes.trans h'.scopes, fun hf => h'.functions (h.functions hf)⟩

theorem extent_le (h : m.Grows m') : m.extent ≤ m'.extent := by
  refine ⟨h.scopes.size_le, Nat.le_of_not_lt fun hlt => ?_⟩
  have hf := h.functions (Array.getElem?_eq_getElem hlt)
  exact Nat.lt_irrefl _ (Array.getElem?_eq_some_iff.1 hf).1

/-- What has the same scopes and functions has grown from a machine as well. -/
theorem of_streams (hscopes : m'.scopes = m.scopes) (hfunctions : m'.functions = m.functions) :
    m.Grows m' :=
  ⟨by rw [hscopes]; exact .refl _, by rw [hfunctions]; exact id⟩

theorem keep (m : Machine) (f : Function) : m.Grows (m.keep f).2 := by
  refine ⟨.refl _, fun {id g} hg => ?_⟩
  have hid := (Array.getElem?_eq_some_iff.1 hg).1
  rw [Machine.keep, Array.getElem?_push, if_neg (Nat.ne_of_lt hid), hg]

end Grows

namespace Formed

theorem of_streams (h : m.Formed) (hscopes : m'.scopes = m.scopes)
    (hfunctions : m'.functions = m.functions) : m'.Formed where
  tree := hscopes ▸ h.tree
  bound := by
    have hbound := h.bound
    simpa only [Intact, hscopes, hfunctions] using hbound
  closures := by
    rw [hscopes, hfunctions]
    exact h.closures
  code := by
    have hcode := h.code
    simpa only [Machine.FunctionFree, hfunctions] using hcode

theorem define (h : m.Formed) {v : Value} (hv : m.extent.Knows v) (i : Nat) (name : String) :
    Machine.Formed { m with scopes := m.scopes.define i name v } where
  tree := h.tree.define i name v
  bound := h.bound.define hv i name
  closures f hf := by
    rw [ScopeTree.size_define]
    exact h.closures f hf
  code := h.code

theorem child (h : m.Formed) {i : Nat} (hi : i < m.scopes.size) :
    Machine.Formed { m with scopes := m.scopes.child i } where
  tree := h.tree.child hi
  bound := h.bound.child i
  closures f hf := by
    rw [ScopeTree.size_child]
    exact Nat.lt_succ_of_lt (h.closures f hf)
  code := h.code

theorem keep (h : m.Formed) {f : Function} (hcode : f.body.FunctionFree)
    (hclosure : f.closure < m.scopes.size) : (m.keep f).2.Formed where
  tree := h.tree
  bound := h.bound.keep f
  closures g hg := by
    rcases Array.mem_push.1 hg with hg | rfl
    · exact h.closures g hg
    · exact hclosure
  code := h.code.keep hcode

/-- A function that is known by its number is kept, and what it holds is there. -/
theorem exists_function (h : m.Formed) {id : Nat} (hid : id < m.functions.size) :
    ∃ f, m.functions[id]? = some f ∧ f.body.FunctionFree ∧ f.closure < m.scopes.size :=
  ⟨m.functions[id], Array.getElem?_eq_getElem hid, h.code _ (Array.getElem_mem hid),
    h.closures _ (Array.getElem_mem hid)⟩

/-- What is bound or comes of an evaluation is held. -/
theorem heldBy (h : m.Formed) {v : Value} (hv : m.extent.Knows v) : v.HeldBy m := by
  cases v with
  | function id name =>
    obtain ⟨f, hf, -, hclosure⟩ := h.exists_function hv
    exact ⟨f, hf, hclosure⟩
  | _ => trivial

theorem orderly (h : m.Formed) : m.Orderly where
  acyclic := h.tree.acyclic
  older := h.tree.lt_of_transGen
  rooted _ := h.tree.reflTransGen
  outermost := h.tree.not_inside_outermost
  bound hs hv := h.heldBy (h.bound hs hv)
  search name _ := h.tree.finds name

end Formed

end Machine

/-! ## Runs that uphold the heap -/

namespace Run

variable {α β : Type} {e e' : Extent}

/-- Whether a run that began on `m` ended on a well-formed heap that has grown from that of `m`, and
    with a result that has the property `Q`. -/
def EndsFormed (m : Machine) (Q : Extent → α → Prop) : EStateM.Result Stop Machine α → Prop
  | .ok a m' => m'.Formed ∧ m.Grows m' ∧ Q m'.extent a
  | .error _ m' => m'.Formed ∧ m.Grows m'

/-- Whether the run `r` upholds well-formed heaps of the extent `e` or more, and `r'` does the same
    on them. -/
structure Upholds (e : Extent) (Q : Extent → α → Prop) (r r' : Run α) : Prop where
  same : ∀ ⦃m : Machine⦄, m.Formed → e ≤ m.extent → r'.run m = r.run m
  ends : ∀ ⦃m : Machine⦄, m.Formed → e ≤ m.extent → EndsFormed m Q (r.run m)

/-- The results of runs of which nothing is told. -/
def Whatever (_ : Extent) (_ : α) : Prop := True

namespace Upholds

variable {r r' : Run α} {P Q : Extent → α → Prop} {R : Extent → β → Prop}

theorem refl (h : ∀ ⦃m : Machine⦄, m.Formed → e ≤ m.extent → EndsFormed m Q (r.run m)) :
    Upholds e Q r r :=
  ⟨fun _ _ _ => rfl, h⟩

/-- Where there is more than `e`, no less is upheld. -/
theorem mono (h : Upholds e Q r r') (he : e ≤ e') : Upholds e' Q r r' :=
  ⟨fun _ hm hle => h.same hm (Extent.le_trans he hle),
    fun _ hm hle => h.ends hm (Extent.le_trans he hle)⟩

theorem pure {a : α} (h : ∀ e', e ≤ e' → Q e' a) : Upholds e Q (Pure.pure a) (Pure.pure a) :=
  .refl fun m hm hle => ⟨hm, .refl m, h _ hle⟩

theorem throw (stop : Stop) :
    Upholds e Q (MonadExcept.throw stop : Run α) (MonadExcept.throw stop) :=
  .refl fun m hm _ => ⟨hm, .refl m⟩

theorem bind {f f' : α → Run β} (h : Upholds e P r r')
    (hf : ∀ e' a, e ≤ e' → P e' a → Upholds e' R (f a) (f' a)) :
    Upholds e R (r >>= f) (r' >>= f') where
  same m hm hle := by
    have hend := h.ends hm hle
    rw [EStateM.run_bind, EStateM.run_bind, h.same hm hle]
    cases hrun : r.run m with
    | ok a m₁ =>
      rw [hrun] at hend
      obtain ⟨hm₁, hgrows, ha⟩ := hend
      exact (hf _ a (Extent.le_trans hle hgrows.extent_le) ha).same hm₁ (Extent.le_refl _)
    | error stop m₁ => rfl
  ends m hm hle := by
    have hend := h.ends hm hle
    rw [EStateM.run_bind]
    cases hrun : r.run m with
    | ok a m₁ =>
      rw [hrun] at hend
      obtain ⟨hm₁, hgrows, ha⟩ := hend
      have hend₁ := (hf _ a (Extent.le_trans hle hgrows.extent_le) ha).ends hm₁ (Extent.le_refl _)
      dsimp only
      cases hrun₁ : (f a).run m₁ with
      | ok b m₂ => rw [hrun₁] at hend₁; exact ⟨hend₁.1, hgrows.trans hend₁.2.1, hend₁.2.2⟩
      | error stop m₂ => rw [hrun₁] at hend₁; exact ⟨hend₁.1, hgrows.trans hend₁.2⟩
    | error stop m₁ => rw [hrun] at hend; exact hend

/-- What changes the streams of a machine only. -/
theorem modify {f : Machine → Machine} (hscopes : ∀ m, (f m).scopes = m.scopes)
    (hfunctions : ∀ m, (f m).functions = m.functions) :
    Upholds e Whatever (modify f : Run Unit) (modify f) :=
  .refl fun m hm _ =>
    ⟨hm.of_streams (hscopes m) (hfunctions m), .of_streams (hscopes m) (hfunctions m), trivial⟩

end Upholds

/-! ## Steps -/

theorem fail_upholds {Q : Extent → α → Prop} (cause : Cause) (p : Position) :
    Upholds e Q (fail cause p) (fail cause p) :=
  .throw _

/-- An operation gives no function for its `result`. -/
theorem ofExcept_upholds (p : Position) {result : Except Hindrance Value}
    (h : ∀ {v : Value}, result = .ok v → v.type ≠ .function) :
    Upholds e Extent.Knows (ofExcept p result) (ofExcept p result) := by
  cases result with
  | ok v => exact .pure fun _ _ => (Value.plain_of_type (h rfl)).within
  | error hindrance => cases hindrance <;> exact .throw _

theorem openScope_upholds {scope : Nat} (h : scope < e.scopes) :
    Upholds e (fun e' i => i < e'.scopes) (openScope scope) (openScope scope) := by
  refine .refl fun m hm hle => ⟨hm.child (Nat.lt_of_lt_of_le h hle.1), ⟨.child _ _, id⟩, ?_⟩
  exact Nat.lt_of_lt_of_eq (Nat.lt_succ_self _) (ScopeTree.size_child ..).symm

theorem define_upholds (scope : Nat) (name : String) {v : Value} (hv : e.Knows v) :
    Upholds e Whatever (define scope name v) (define scope name v) :=
  .refl fun _ hm hle => ⟨hm.define (hv.mono hle) scope name, ⟨.define .., id⟩, trivial⟩

theorem defineAll_upholds (scope : Nat) (names : List String) {values : List Value}
    (h : ∀ v ∈ values, e.Knows v) :
    Upholds e Whatever (defineAll scope names values) (defineAll scope names values) := by
  induction names generalizing e values with
  | nil => exact .pure fun _ _ => trivial
  | cons name names ih =>
    cases values with
    | nil => exact .pure fun _ _ => trivial
    | cons v values =>
      refine (define_upholds scope name (h v (.head _))).bind fun e' _ hle _ => ?_
      exact ih fun w hw => (h w (.tail _ hw)).mono hle

theorem lookup_upholds (scope : Nat) (name : String) (p : Position) :
    Upholds e Extent.Knows (lookup scope name p) (lookup scope name p) := by
  refine .refl fun m hm hle => ?_
  simp only [lookup, EStateM.run_bind, EStateM.run_get]
  cases hget : m.scopes.get? scope name with
  | none => exact ⟨hm, .refl m⟩
  | some v =>
    obtain ⟨j, -, hv⟩ := Option.bind_eq_some_iff.1 hget
    obtain ⟨s, hs, hv⟩ := Option.bind_eq_some_iff.1 hv
    exact ⟨hm, .refl m, hm.bound hs (Scope.binds_of_find? hv)⟩

theorem assign_upholds (scope : Nat) (name : String) {v : Value} (hv : e.Knows v) (p : Position) :
    Upholds e Whatever (assign scope name v p) (assign scope name v p) := by
  refine .refl fun m hm hle => ?_
  simp only [assign, EStateM.run_bind, EStateM.run_get]
  cases m.scopes.resolve name scope with
  | none => exact ⟨hm, .refl m⟩
  | some j => exact (define_upholds j name hv).ends hm hle

theorem declare_upholds {f : Function} (hcode : f.body.FunctionFree)
    (hclosure : f.closure < e.scopes) : Upholds e Whatever (declare f) (declare f) := by
  have hkeep : Upholds e Extent.Knows (modifyGet (·.keep f) : Run Value)
      (modifyGet (·.keep f)) := by
    refine .refl fun m hm hle => ?_
    refine ⟨hm.keep hcode (Nat.lt_of_lt_of_le hclosure hle.1), .keep m f, ?_⟩
    exact Nat.lt_of_lt_of_eq (Nat.lt_succ_self _) (Array.size_push ..).symm
  exact hkeep.bind fun _ v _ hv => define_upholds f.closure f.name hv

/-- A function that is known by its number is found by `function`. -/
theorem function_upholds {id : Nat} (hid : id < e.functions) :
    Upholds e (fun e' f => f.body.FunctionFree ∧ f.closure < e'.scopes) (function id)
      (function id) := by
  refine .refl fun m hm hle => ?_
  obtain ⟨f, hf, hcode, hclosure⟩ := hm.exists_function (Nat.lt_of_lt_of_le hid hle.2)
  simp only [function, EStateM.run_bind, EStateM.run_get, hf]
  exact ⟨hm, .refl m, hcode, hclosure⟩

theorem write_upholds (text : String) : Upholds e Whatever (write text) (write text) :=
  .modify (fun _ => rfl) fun _ => rfl

theorem print_upholds (v : Value) : Upholds e Whatever (Run.print v) (Run.print v) := by
  unfold Run.print
  split
  · exact write_upholds _
  · exact .throw _

theorem record_upholds (name : String) (values : List Value) (p : Position) :
    Upholds e Whatever (record name values p) (record name values p) := by
  refine .modify (fun m => ?_) fun m => ?_ <;> split <;> rfl

theorem readLine_upholds : Upholds e Whatever readLine readLine := by
  refine .refl fun m hm _ => ?_
  unfold readLine
  simp only [EStateM.run_bind, EStateM.run_get]
  split
  · exact ⟨hm, .refl m⟩
  · exact ⟨hm.of_streams rfl rfl, .of_streams rfl rfl, trivial⟩

theorem apply_upholds (b : Builtin) (arguments : List Value) :
    Upholds e Extent.Knows (b.apply arguments) (b.apply arguments) := by
  cases b with
  | input =>
    cases arguments with
    | cons v vs => exact .throw _
    | nil =>
      refine (write_upholds _).bind fun _ _ _ _ => readLine_upholds.bind fun _ line _ _ => ?_
      refine .pure fun _ _ => (Value.plain_of_type ?_).within
      split
      · nofun
      · exact type_inputValue line

end Run

end Scripting
