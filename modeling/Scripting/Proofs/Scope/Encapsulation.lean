import Scripting.Proofs.Scope.Agreement
import Scripting.Proofs.Scope.Names

set_option autoImplicit false

/-! # What a run can come to

Code that runs in a scope can come to that scope, to the scopes around it, and to those that are
captured by the functions it finds there: those that `Machine.Reaches` tells of; it can make new
scopes. It leaves every other scope as it is, and what the others hold makes no difference to it: a
variable that only some closures have captured is read and changed through them and in no other way.
The scopes that can be come to change while the code runs, as functions are handed on. The set that
is kept to, `InSight`, is larger and stays the same: the scopes that could be come to at the
beginning, and all new ones. It is closed, since whatever is bound in it captures scopes of it. -/

namespace Scripting

/-! ## Reaching a scope -/

/-- The scopes that can be come to from the scope `i`: itself, the ones around a scope that can be
    come to, and the ones captured by the functions bound in such a scope. -/
inductive Machine.Reaches (m : Machine) (i : Nat) : Nat → Prop
  | here : Reaches m i i
  | parent {j p : Nat} {s : Scope} (h : Reaches m i j) (hs : m.scopes.scopes[j]? = some s)
      (hp : s.parent = some p) : Reaches m i p
  | closure {j id : Nat} {s : Scope} {name : String} {f : Function} (h : Reaches m i j)
      (hs : m.scopes.scopes[j]? = some s) (hv : s.Binds (.function id name))
      (hf : m.functions[id]? = some f) : Reaches m i f.closure

namespace Machine

/-- Whether the function with the number `id` is bound in a scope that can be come to from the scope
    `i`. -/
def Holds (m : Machine) (i id : Nat) : Prop :=
  ∃ j s name, m.Reaches i j ∧ m.scopes.scopes[j]? = some s ∧ s.Binds (.function id name)

/-- Whether every function that is bound in a scope of `m` is kept on the machine. -/
def Intact (m : Machine) : Prop :=
  ∀ ⦃i : Nat⦄ ⦃s : Scope⦄ ⦃v : Value⦄, m.scopes.scopes[i]? = some s → s.Binds v →
    v.Within (· < m.functions.size)

/-- Whether another machine, `m'`, has as many scopes, agrees on those that can be come to from the
    scope `i`, and has the same input left. The functions that are bound in these scopes are the
    same; of others there may be more or less. -/
structure AgreesFrom (m : Machine) (i : Nat) (m' : Machine) : Prop where
  size : m'.scopes.size = m.scopes.size
  scope : ∀ {j : Nat}, m.Reaches i j → m'.scopes.scopes[j]? = m.scopes.scopes[j]?
  function : ∀ {id : Nat}, m.Holds i id → m'.functions[id]? = m.functions[id]?
  input : m'.input = m.input
  inputEnd : m'.inputEnd = m.inputEnd

theorem AgreesFrom.refl (m : Machine) (i : Nat) : m.AgreesFrom i m :=
  ⟨rfl, fun _ => rfl, fun _ => rfl, rfl, rfl⟩

end Machine

/-! ## Code without functions in it -/

/-- The `Correspondence` of a tree to itself where no literal is a function. -/
def Correspondence.functionFree : Correspondence where
  literal v v' := v' = v ∧ v.Plain
  point _ p p' := p' = p

/-- Whether no literal of an expression is a function. -/
def Expr.FunctionFree (e : Expr) : Prop :=
  e.Corresponds .functionFree e

/-- Whether no literal of a statement is a function. -/
def Stmt.FunctionFree (s : Stmt) : Prop :=
  s.Corresponds .functionFree s

/-- Whether no literal in the functions of the machine `m` is a function. -/
def Machine.FunctionFree (m : Machine) : Prop :=
  ∀ f ∈ m.functions, f.body.FunctionFree

theorem Correspondence.functionFree_places : Correspondence.functionFree.Places id :=
  ⟨fun h => h.1, fun h => h⟩

/-! ## Intact machines -/

namespace Machine

variable {m : Machine}

theorem Intact.define (h : m.Intact) {v : Value} (hv : v.Within (· < m.functions.size)) (i : Nat)
    (name : String) : Machine.Intact { m with scopes := m.scopes.define i name v } := by
  intro j s w hs hw
  rw [ScopeTree.getElem?_define] at hs
  split at hs
  · obtain ⟨s', hs', rfl⟩ := Option.map_eq_some_iff.1 hs
    rcases Scope.eq_or_binds_of_binds_bind hw with rfl | hw
    · exact hv
    · exact h hs' hw
  · exact h hs hw

/-- Nothing is bound in a new scope, which `child` opens. -/
theorem Intact.child (h : m.Intact) (i : Nat) :
    Machine.Intact { m with scopes := m.scopes.child i } := by
  intro j s v hs hv
  rw [ScopeTree.getElem?_child] at hs
  split at hs
  · cases hs
    obtain ⟨name, hmem⟩ := hv
    cases hmem
  · exact h hs hv

theorem Intact.keep (h : m.Intact) (f : Function) : (m.keep f).2.Intact := by
  intro j s v hs hv
  refine (h hs hv).mono fun id hid => ?_
  simp only [Machine.keep, Array.size_push]
  omega

theorem FunctionFree.keep (h : m.FunctionFree) {f : Function} (hf : f.body.FunctionFree) :
    (m.keep f).2.FunctionFree := by
  intro g hg
  rcases Array.mem_push.1 hg with hg | rfl
  · exact h g hg
  · exact hf

end Machine

/-! ## The same effect on two machines -/

namespace Machine

/-- The number that a function has in a run on `m'` if it has the number `id` in the same run on
    `m`. New functions are numbered from the number of those that are there. -/
def renumber (m m' : Machine) (id : Nat) : Nat :=
  if id < m.functions.size then id else id - m.functions.size + m'.functions.size

/-- Whether the scope `j` can be come to from the scope `i` or is new. -/
def InSight (m : Machine) (i j : Nat) : Prop :=
  m.Reaches i j ∨ m.scopes.size ≤ j

/-- Whether the function with the number `id` is bound in a scope that can be come to, or is new,
    where `n` functions are kept. -/
def Knows (m : Machine) (i n id : Nat) : Prop :=
  id < n ∧ (id < m.functions.size → m.Holds i id)

/-- What becomes of `m` and `m'` by the same run, which leaves `m₁` and `m₁'`: the same text is
    written and the same input is left, and the scopes that could be come to and the new ones are
    the same, apart from the numbers of new functions. -/
structure SameEffect (m m' : Machine) (i : Nat) (m₁ m₁' : Machine) : Prop where
  output : ∃ text, m₁.output = m.output ++ text ∧ m₁'.output = m'.output ++ text
  input : m₁'.input = m₁.input
  size : m₁'.scopes.size = m₁.scopes.size
  scope : ∀ {j : Nat}, m.InSight i j →
    m₁'.scopes.scopes[j]? = (m₁.scopes.scopes[j]?).map (Scope.renumbered (m.renumber m'))
  function : ∀ {id : Nat}, m.Knows i m₁.functions.size id →
    m₁'.functions[m.renumber m' id]? = m₁.functions[id]?

end Machine

/-- A signal in which a function has another number, as `number` gives it. -/
def Signal.renumbered (number : Nat → Nat) : Signal → Signal
  | .returned v => .returned (v.renumbered number)
  | signal => signal

/-- Whether two runs ended with the same result, apart from the numbers of new functions, or with
    the same stop, and had the `SameEffect`. -/
def Run.SameEnd {α : Type} (renumbered : (Nat → Nat) → α → α) (m m' : Machine) (i : Nat) :
    EStateM.Result Stop Machine α → EStateM.Result Stop Machine α → Prop
  | .ok a m₁, .ok a' m₁' => a' = renumbered (m.renumber m') a ∧ m.SameEffect m' i m₁ m₁'
  | .error e m₁, .error e' m₁' => e' = e ∧ m.SameEffect m' i m₁ m₁'
  | _, _ => False

/-- Whether the run `r` in the scope `i` leaves the scopes that cannot be come to as they are, and
    does the same on every machine that `AgreesFrom` there with `m`. -/
structure Machine.Encapsulates {α : Type} (m : Machine) (i : Nat)
    (renumbered : (Nat → Nat) → α → α) (r : Run α) : Prop where
  untouched : ∀ j < m.scopes.size, ¬ m.Reaches i j →
    (r.leaves m).scopes.scopes[j]? = m.scopes.scopes[j]?
  alike : ∀ m', m.AgreesFrom i m' → Run.SameEnd renumbered m m' i (r.run m) (r.run m')

/-! ## The run on both machines -/

/-- The machines `m₁` and `m₁'` in the middle of the same run, which began on `m` and `m'`: they
    agree on the scopes in sight and on the functions known there, whose code is free of functions
    and captures scopes in sight. The other scopes are as they were. -/
structure Machine.Together (m m' : Machine) (i : Nat) (m₁ m₁' : Machine) : Prop where
  agrees : m₁.scopes.Agrees (m.InSight i) (m.renumber m') m₁'.scopes
  size_le : m.scopes.size ≤ m₁.scopes.size
  outside : ∀ {j : Nat}, ¬ m.InSight i j → m₁.scopes.scopes[j]? = m.scopes.scopes[j]?
  values : ∀ {j : Nat} {s : Scope} {v : Value}, m.InSight i j → m₁.scopes.scopes[j]? = some s →
    s.Binds v → v.Within (m.Knows i m₁.functions.size)
  functions : ∀ {id : Nat}, m.Knows i m₁.functions.size id → ∃ f, m₁.functions[id]? = some f ∧
    m₁'.functions[m.renumber m' id]? = some f ∧ f.body.FunctionFree ∧ m.InSight i f.closure
  count_le : m.functions.size ≤ m₁.functions.size
  count : m₁'.functions.size + m.functions.size = m₁.functions.size + m'.functions.size
  input : m₁'.input = m₁.input ∧ m₁'.inputEnd = m₁.inputEnd
  output : ∃ text, m₁.output = m.output ++ text ∧ m₁'.output = m'.output ++ text

namespace Machine

variable {m m' m₁ m₁' : Machine} {i : Nat}

/-- Functions that `m` knows have distinct numbers on both machines. -/
theorem renumber_inj (hagree : m.AgreesFrom i m') {n j k : Nat}
    (hj : m.Knows i n j) (hk : m.Knows i n k) (h : m.renumber m' j = m.renumber m' k) : j = k := by
  -- a function that is bound where the machines agree is kept on the other one too
  have hlt : ∀ {id : Nat}, m.Knows i n id → id < m.functions.size → id < m'.functions.size := by
    intro id hid hold
    have hfunction := hagree.function (hid.2 hold)
    rw [Array.getElem?_eq_getElem hold] at hfunction
    exact (Array.getElem?_eq_some_iff.1 hfunction).1
  have hj := hlt hj
  have hk := hlt hk
  unfold renumber at h
  split at h <;> split at h <;> omega

/-- Two machines that agree are `Together` at the beginning. -/
theorem AgreesFrom.together (hagree : m.AgreesFrom i m') (hintact : m.Intact)
    (hfree : m.FunctionFree) : m.Together m' i m m' where
  agrees := {
    size := hagree.size
    scope := by
      intro j hj
      rcases hj with hj | hj
      · rw [hagree.scope hj]
        cases hs : m.scopes.scopes[j]? with
        | none => rfl
        | some s =>
          have hsame : s.renumbered (m.renumber m') = s :=
            Scope.renumbered_eq_self fun v hv => (hintact hs hv).mono fun id hid => if_pos hid
          rw [Option.map_some, hsame]
      · have hnone : ∀ {t : ScopeTree}, t.size ≤ j → t.scopes[j]? = none :=
          fun ht => Array.getElem?_eq_none ht
        rw [hnone hj, hnone (hagree.size ▸ hj)]
        rfl
    parent := by
      intro j p s hj hs hp
      rcases hj with hj | hj
      · exact .inl (hj.parent hs hp)
      · exact absurd (Array.getElem?_eq_some_iff.1 hs).1 (Nat.not_lt_of_le hj) }
  size_le := Nat.le_refl _
  outside _ := rfl
  values := by
    intro j s v hj hs hv
    rcases hj with hj | hj
    · cases v with
      | function id name => exact ⟨hintact hs hv, fun _ => ⟨j, s, name, hj, hs, hv⟩⟩
      | _ => trivial
    · exact absurd (Array.getElem?_eq_some_iff.1 hs).1 (Nat.not_lt_of_le hj)
  functions := by
    rintro id ⟨hid, hholds⟩
    obtain ⟨j, s, name, hj, hs, hv⟩ := hholds hid
    have hf : m.functions[id]? = some m.functions[id] := Array.getElem?_eq_getElem hid
    refine ⟨m.functions[id], hf, ?_, hfree _ (Array.getElem_mem hid), .inl (hj.closure hs hv hf)⟩
    rw [renumber, if_pos hid, hagree.function (hholds hid), hf]
  count_le := Nat.le_refl _
  count := Nat.add_comm _ _
  input := ⟨hagree.input, hagree.inputEnd⟩
  output := ⟨"", by simp⟩

namespace Together

/-- A value that is known may be bound in a scope that is `InSight`. -/
theorem define (h : m.Together m' i m₁ m₁') {j : Nat} (hj : m.InSight i j) {v : Value}
    (hv : v.Within (m.Knows i m₁.functions.size)) (name : String) :
    m.Together m' i { m₁ with scopes := m₁.scopes.define j name v }
      { m₁' with scopes := m₁'.scopes.define j name (v.renumbered (m.renumber m')) } :=
  { h with
    agrees := h.agrees.define name v
    size_le := by simpa using h.size_le
    outside := by
      intro l hl
      have hne : j ≠ l := fun heq => hl (heq ▸ hj)
      rw [ScopeTree.getElem?_define, if_neg hne, h.outside hl]
    values := by
      intro l s w hl hs hw
      rw [ScopeTree.getElem?_define] at hs
      split at hs
      · obtain ⟨s', hs', rfl⟩ := Option.map_eq_some_iff.1 hs
        rcases Scope.eq_or_binds_of_binds_bind hw with rfl | hw
        · exact hv
        · exact h.values hl hs' hw
      · exact h.values hl hs hw }

/-- A new scope, which `child` opens, is in sight. -/
theorem child (h : m.Together m' i m₁ m₁') {j : Nat} (hj : m.InSight i j) :
    m.Together m' i { m₁ with scopes := m₁.scopes.child j }
      { m₁' with scopes := m₁'.scopes.child j } :=
  { h with
    agrees := h.agrees.child hj
    size_le := by simpa using Nat.le_succ_of_le h.size_le
    outside := by
      intro l hl
      have hne : l ≠ m₁.scopes.size := fun heq => hl (.inr (heq ▸ h.size_le))
      rw [ScopeTree.getElem?_child, if_neg hne, h.outside hl]
    values := by
      intro l s w hl hs hw
      rw [ScopeTree.getElem?_child] at hs
      split at hs
      · cases hs
        obtain ⟨name, hmem⟩ := hw
        cases hmem
      · exact h.values hl hs hw }

/-- A function whose code is free of functions and captures a scope that is `InSight` may be kept.
    Its number is the next one on both machines. -/
theorem keep (h : m.Together m' i m₁ m₁') {f : Function} (hfree : f.body.FunctionFree)
    (hf : m.InSight i f.closure) :
    m.Together m' i (m₁.keep f).2 (m₁'.keep f).2 ∧
      m.Knows i (m₁.functions.size + 1) m₁.functions.size ∧
      m₁'.functions.size = m.renumber m' m₁.functions.size := by
  have hcount_le := h.count_le
  have hcount := h.count
  have hnumber : m₁'.functions.size = m.renumber m' m₁.functions.size := by
    rw [renumber, if_neg (Nat.not_lt_of_le hcount_le)]
    omega
  have hsize : (m₁.functions.push f).size = m₁.functions.size + 1 := Array.size_push ..
  have hnew : m.Knows i (m₁.functions.size + 1) m₁.functions.size :=
    ⟨Nat.lt_succ_self _, fun hlt => absurd hlt (Nat.not_lt_of_le hcount_le)⟩
  have hmono : ∀ {id : Nat}, m.Knows i m₁.functions.size id →
      m.Knows i (m₁.functions.push f).size id :=
    fun hid => ⟨hsize ▸ Nat.lt_succ_of_lt hid.1, hid.2⟩
  refine ⟨{ h with values := ?_, functions := ?_, count_le := ?_, count := ?_ }, hnew, hnumber⟩
  · intro j s v hj hs hv
    exact (h.values hj hs hv).mono fun _ => hmono
  · intro id hid
    have hid' : id < m₁.functions.size + 1 := hsize ▸ hid.1
    simp only [Machine.keep, Array.getElem?_push]
    rcases Nat.lt_succ_iff_lt_or_eq.1 hid' with hlt | rfl
    · obtain ⟨g, hg, hg', hrest⟩ := h.functions ⟨hlt, hid.2⟩
      have hlt' := (Array.getElem?_eq_some_iff.1 hg').1
      exact ⟨g, by rw [if_neg (Nat.ne_of_lt hlt), hg], by rw [if_neg (Nat.ne_of_lt hlt'), hg'],
        hrest⟩
    · exact ⟨f, by rw [if_pos rfl], by rw [if_pos hnumber.symm], hfree, hf⟩
  · exact Nat.le_trans hcount_le (hsize ▸ Nat.le_succ _)
  · simp only [Machine.keep, Array.size_push]
    omega

end Together

end Machine

/-! ## Runs on both machines -/

/-- The same run on the machines `m` and `m'`, which agree on the scopes that can be come to from
    the scope `i`. -/
def Simulation.together (m m' : Machine) (i : Nat) : Simulation where
  toCorrespondence := .functionFree
  state := m.Together m' i
  stop e e' := e' = e
  number := m.renumber m'
  known n v := v.Within (m.Knows i n)
  visible := m.InSight i
  own := m.InSight i

theorem Simulation.together_lawful {m m' : Machine} {i : Nat} (hagree : m.AgreesFrom i m') :
    (together m m' i).Lawful where
  known_mono hn hv := hv.mono fun _ hid => ⟨Nat.lt_of_lt_of_le hid.1 hn, hid.2⟩
  known_of_type h _ := (Value.plain_of_type h).within
  number_inj := Machine.renumber_inj hagree
  own_visible := id
  literal := by rintro v _ ⟨rfl, hv⟩ n; exact ⟨hv.within, hv.renumbered_eq.symm⟩
  fault := by rintro cause w p _ - rfl; rfl
  stop _ := rfl
  get := by
    intro m₁ m₁' j name _ _ hm hj _
    rw [hm.agrees.get?_eq hj]
    cases hget : m₁.scopes.get? j name with
    | none => exact .none
    | some v =>
      obtain ⟨l, hl, hv⟩ := Option.bind_eq_some_iff.1 hget
      obtain ⟨s, hs, hv⟩ := Option.bind_eq_some_iff.1 hv
      have hvisible := hm.agrees.visible_of_resolve hj hl
      exact .some ⟨hm.values hvisible hs (Scope.binds_of_find? hv), rfl⟩
  assign := by
    rintro m₁ m₁' j v _ hm hj ⟨hv, rfl⟩ name
    unfold ScopeTree.assign?
    rw [hm.agrees.resolve_eq hj]
    cases hl : m₁.scopes.resolve name j with
    | none => exact .none
    | some l => exact .some (hm.define (hm.agrees.visible_of_resolve hj hl) hv name)
  define := by
    rintro m₁ m₁' j v _ hm hj ⟨hv, rfl⟩ name
    exact hm.define hj hv name
  child hm hj := ⟨hm.agrees.size, .inr hm.size_le, hm.child hj⟩
  keep := by
    intro m₁ m₁' f f' hm hf
    obtain rfl : f' = f := by simpa using hf.eq_placed Correspondence.functionFree_places
    obtain ⟨hstate, hknown, hnumber⟩ := hm.keep hf.body hf.visible
    exact ⟨hstate, hknown, congrArg (Value.function · f'.name) hnumber⟩
  function := by
    intro m₁ m₁' id name hm hid
    obtain ⟨f, hf, hf', hfree, hclosure⟩ := hm.functions hid
    have hf'' : m₁'.functions[(together m m' i).number id]? = some f := hf'
    rw [hf, hf'']
    exact ⟨rfl, rfl, hfree, rfl, hclosure⟩
  write := by
    intro m₁ m₁' hm text
    obtain ⟨written, hout, hout'⟩ := hm.output
    exact { hm with output := ⟨written ++ text, by simp [hout, String.append_assoc],
      by simp [hout', String.append_assoc]⟩ }
  read hm _ := .inl ⟨hm.input.1, hm.input.2, fun _ => { hm with input := ⟨rfl, hm.input.2⟩ }⟩
  record hm _ _ _ := { hm with }

/-- What was in sight of `m` and `m'` is the same on both. -/
theorem Machine.Together.sameEffect {m m' m₁ m₁' : Machine} {i : Nat}
    (h : m.Together m' i m₁ m₁') : m.SameEffect m' i m₁ m₁' where
  output := h.output
  input := h.input.1
  size := h.agrees.size
  scope := h.agrees.scope
  function hid := by
    obtain ⟨f, hf, hf', -⟩ := h.functions hid
    rw [hf, hf']

/-- A run that takes two machines that are `Together` to two such machines, and to corresponding
    results, keeps to the scopes in sight. -/
theorem Machine.encapsulates_of_relates {α : Type} {m : Machine} {i : Nat} (hintact : m.Intact)
    (hfree : m.FunctionFree) {renumbered : (Nat → Nat) → α → α} {r : Run α}
    {Q : Machine → Nat → α → α → Prop}
    (hQ : ∀ {m' n a a'}, Q m' n a a' → a' = renumbered (m.renumber m') a)
    (h : ∀ m', m.AgreesFrom i m' → (Simulation.together m m' i).Relates 0 (Q m') r r) :
    m.Encapsulates i renumbered r where
  untouched := by
    intro j hlt hj
    have hagree := AgreesFrom.refl m i
    have hend := h _ hagree (hagree.together hintact hfree) (Nat.zero_le _)
    have hsight : ¬ m.InSight i j := fun hj' => hj'.elim hj (Nat.not_le_of_lt hlt)
    unfold Run.leaves
    cases hrun : r.run m with
    | ok a m₁ => rw [hrun] at hend; exact hend.1.outside hsight
    | error e m₁ => rw [hrun] at hend; exact (hend.resolve_left id).1.outside hsight
  alike := by
    intro m' hagree
    have hend := h _ hagree (hagree.together hintact hfree) (Nat.zero_le _)
    cases hrun : r.run m with
    | ok a m₁ =>
      cases hrun' : r.run m' with
      | ok a' m₁' => rw [hrun, hrun'] at hend; exact ⟨hQ hend.2.2, hend.1.sameEffect⟩
      | error e' m₁' => rw [hrun, hrun'] at hend; exact hend.elim
    | error e m₁ =>
      cases hrun' : r.run m' with
      | ok a' m₁' => rw [hrun, hrun'] at hend; exact hend.elim
      | error e' m₁' =>
        rw [hrun, hrun'] at hend
        obtain ⟨hm₁, he⟩ := hend.resolve_left id
        exact ⟨he, hm₁.sameEffect⟩

/-- A run in the scope `i` of a machine that is `Intact` and whose functions hold no functions in
    their code: whether it ends normally, with a signal or with a stop, it leaves every scope as it
    is that cannot be come to from there, and on a machine that `AgreesFrom` there it has the same
    result or stop, the same output, and the same scopes in the end, the new ones included. -/
theorem Machine.encapsulates {m : Machine} (hintact : m.Intact) (hfree : m.FunctionFree)
    (rounds depth i : Nat) :
    (∀ e : Expr, e.FunctionFree →
      m.Encapsulates i Value.renumbered (e.evaluate rounds depth i)) ∧
    (∀ s : Stmt, s.FunctionFree →
      m.Encapsulates i Signal.renumbered (s.execute rounds depth i)) := by
  have hengine {m' : Machine} (hagree : m.AgreesFrom i m') :=
    engine_relates (Simulation.together_lawful hagree) rounds depth
  have hi (m' : Machine) : (Simulation.together m m' i).own i := .inl .here
  refine ⟨fun e he => ?_, fun s hs => ?_⟩
  · exact encapsulates_of_relates hintact hfree (fun hv => hv.eq)
      fun m' hagree => (hengine hagree).evaluate (hi m') he
  · refine encapsulates_of_relates hintact hfree (fun hsignal => ?_)
      fun m' hagree => (hengine hagree).execute (hi m') hs
    cases hsignal with
    | normal => rfl
    | jump which => rfl
    | returned hv => exact congrArg Signal.returned hv.eq

/-- The declaration `fn f() {}` in the outermost scope of a machine whose second scope only a
    function has captured that is bound nowhere. On a machine without that function, and with
    another value in that scope, `f` has another number. -/
theorem Machine.encapsulates_of_declaration :
    let next : Function := ⟨"next", [], .block [] ⟨1, 1⟩, 1⟩
    let scopes (b : Bool) : ScopeTree := ⟨#[⟨none, []⟩, ⟨some 0, [("n", .bool b)]⟩]⟩
    let m : Machine := { bare [] with scopes := scopes false, functions := #[next] }
    let m' : Machine := { bare [] with scopes := scopes true, functions := #[] }
    let s : Stmt := .function "f" [] (.block [] ⟨1, 8⟩) ⟨1, 1⟩
    m.Intact ∧ m.FunctionFree ∧ s.FunctionFree ∧ ¬ m.Reaches 0 1 ∧ m.AgreesFrom 0 m' ∧
      ((s.execute 4 4 0).leaves m).scopes.scopes[1]? = m.scopes.scopes[1]? ∧
      Run.SameEnd Signal.renumbered m m' 0 ((s.execute 4 4 0).run m)
        ((s.execute 4 4 0).run m') := by
  intro next scopes m m' s
  have hintact : m.Intact := by
    intro i scope v hscope hv
    obtain ⟨name, hmem⟩ := hv
    match i, hscope with
    | 0, hscope => cases hscope; cases hmem
    | 1, hscope =>
      cases hscope
      cases hmem with
      | head => trivial
      | tail _ hmem => cases hmem
  have hfree : m.FunctionFree := by
    intro f hf
    obtain rfl : f = next := by simpa [m] using hf
    exact ⟨trivial, rfl⟩
  have hs : s.FunctionFree := ⟨rfl, rfl, ⟨trivial, rfl⟩, rfl⟩
  have hreach : ∀ {j : Nat}, m.Reaches 0 j → j = 0 := by
    intro j hj
    induction hj with
    | here => rfl
    | parent _ hscope hp ih => subst ih; cases hscope; cases hp
    | closure _ hscope hv _ ih => subst ih; cases hscope; obtain ⟨name, hmem⟩ := hv; cases hmem
  have hagree : m.AgreesFrom 0 m' := {
    size := rfl
    scope := fun hj => hreach hj ▸ rfl
    function := by
      rintro id ⟨j, scope, name, hj, hscope, _, hmem⟩
      obtain rfl := hreach hj
      cases hscope
      cases hmem
    input := rfl
    inputEnd := rfl }
  have hnot : ¬ m.Reaches 0 1 := fun h => absurd (hreach h) (by decide)
  have hencapsulates := (encapsulates hintact hfree 4 4 0).2 s hs
  exact ⟨hintact, hfree, hs, hnot, hagree, hencapsulates.untouched 1 (by decide) hnot,
    hencapsulates.alike m' hagree⟩

end Scripting
