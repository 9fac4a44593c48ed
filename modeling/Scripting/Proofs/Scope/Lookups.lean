import Mathlib
import Scripting.Proofs.Scope.Names
import Scripting.Proofs.Scope.Rooted

set_option autoImplicit false

/-! # What is found in a tree of scopes

A tree grows from its root by `ScopeAction`s, in any order and at any of its scopes. What each
action does is told here by what `get?` finds from all the scopes of the tree, before it and behind.
A declaration shows in the scope that it is made in and in those inside it, down to where the name
is bound again. An assignment shows wherever the name is found in the same scope as from where it is
made. What is found in the end is the latest value that was bound there, by a declaration or by an
assignment. -/

namespace Scripting

/-! ## Actions -/

/-- What is done with a tree of scopes, and at which of them. -/
inductive ScopeAction where
  | child (scope : Nat)
  | define (scope : Nat) (name : String) (value : Value)
  | assign (scope : Nat) (name : String) (value : Value)
  | get (scope : Nat) (name : String)
  | contains (scope : Nat) (name : String)

/-- The scope at which an action is done. -/
def ScopeAction.scope : ScopeAction → Nat
  | .child i | .define i _ _ | .assign i _ _ | .get i _ | .contains i _ => i

/-- A `value` that was bound to a `name` in a `scope`. -/
structure ScopeTree.Entry where
  scope : Nat
  name : String
  value : Value

/-- What an action binds in the tree `t`, if it binds anything: an assignment binds its name in the
    scope in which the name is found. -/
def ScopeAction.entry? (t : ScopeTree) : ScopeAction → Option ScopeTree.Entry
  | .define i name v => if i < t.size then some ⟨i, name, v⟩ else none
  | .assign i name v => (t.resolve name i).map fun j => ⟨j, name, v⟩
  | _ => none

namespace ScopeTree

/-- The tree after the action `a`. What is to be done at a scope that is not there is not done, and
    an assignment to a name that is not bound fails. -/
def perform (t : ScopeTree) (a : ScopeAction) : ScopeTree :=
  if a.scope < t.size then
    match a with
    | .child i => t.child i
    | .define i name v => t.define i name v
    | .assign i name v => (t.assign? i name v).getD t
    | .get _ _ | .contains _ _ => t
  else t

/-- The tree that comes of actions, the latest of which stands first. -/
def built : List ScopeAction → ScopeTree
  | [] => .root
  | a :: earlier => (built earlier).perform a

/-- The latest value that actions have bound to a name in the scope `i`. -/
def latest? : List ScopeAction → Nat → String → Option Value
  | [], _, _ => none
  | a :: earlier, i, name =>
    match a.entry? (built earlier) with
    | some entry =>
      if entry.scope = i ∧ entry.name = name then some entry.value else latest? earlier i name
    | none => latest? earlier i name

/-- Whether what is bound to `name` in the scope `i` is what is found from a scope: it is `i` or
    lies inside it, and no scope on the way outward to `i` binds the name. -/
inductive Sees (t : ScopeTree) (name : String) (i : Nat) : Nat → Prop
  | here (h : i < t.size) : Sees t name i i
  | outward {j p : Nat} {s : Scope} (hs : t.scopes[j]? = some s) (h : s.find? name = none)
      (hp : s.parent = some p) (hrest : Sees t name i p) : Sees t name i j

/-- What `define`, `assign?` and `child` do to what is found in the tree `t`. -/
structure Behaves (t : ScopeTree) : Prop where
  found : ∀ {name : String} {i j : Nat}, t.resolve name i = some j ↔
    t.Sees name j i ∧ ∃ s, t.scopes[j]? = some s ∧ (s.find? name).isSome
  get : ∀ (i : Nat) (name : String), (t.get? i name).isSome = t.contains i name
  define : ∀ {i j : Nat} {name : String} (v : Value), t.Sees name i j →
    (t.define i name v).get? j name = some v
  define_other : ∀ {i j : Nat} {name other : String} (v : Value),
    ¬ (other = name ∧ t.Sees name i j) → (t.define i name v).get? j other = t.get? j other
  assign : ∀ (i : Nat) (name : String) (v : Value),
    (t.assign? i name v).isSome = t.contains i name
  assigned : ∀ {i : Nat} {name : String} {v : Value} {t' : ScopeTree},
    t.assign? i name v = some t' →
    (∀ (j : Nat) (other : String), t'.get? j other =
      if other = name ∧ t.resolve name j = t.resolve name i then some v else t.get? j other) ∧
    ∀ j : Nat, (t'.scopes[j]?).map Scope.names = (t.scopes[j]?).map Scope.names
  failing : ∀ {i : Nat} {name : String}, t.contains i name = false →
    t.perform (.get i name) = t ∧ ∀ v, t.perform (.assign i name v) = t
  child : ∀ (i : Nat) {j : Nat}, j < t.size → (t.child i).scopes[j]? = t.scopes[j]? ∧
    ∀ name, (t.child i).get? j name = t.get? j name
  opened : ∀ {i : Nat}, i < t.size →
    (∃ s, (t.child i).scopes[t.size]? = some s ∧ s.parent = some i ∧ ∀ name, s.find? name = none) ∧
    ∀ name, (t.child i).get? t.size name = t.get? i name

variable {t : ScopeTree} {i j p : Nat} {name other : String} {s : Scope} {v : Value}

/-! ## One step outward -/

theorem get?_of_find? (hs : t.scopes[j]? = some s) (h : s.find? name = some v) :
    t.get? j name = some v := by
  have hfound : t.resolve name j = some j := by
    rw [resolve, hs]
    simp [h]
  simp [get?, hfound, hs, h]

theorem get?_outermost (hs : t.scopes[j]? = some s) (h : s.find? name = none)
    (hp : s.parent = none) : t.get? j name = none := by
  have hfound : t.resolve name j = none := by
    rw [resolve, hs]
    simp [h, hp]
  simp [get?, hfound]

/-- A name that the scope `j` does not bind is looked up in the scope around it. -/
theorem Rooted.resolve_outward (ht : t.Rooted) (hs : t.scopes[j]? = some s)
    (h : s.find? name = none) (hp : s.parent = some p) : t.resolve name j = t.resolve name p := by
  rw [resolve, hs]
  simp [h, hp, ht.older ⟨s, hs, hp⟩]

theorem Rooted.get?_outward (ht : t.Rooted) (hs : t.scopes[j]? = some s)
    (h : s.find? name = none) (hp : s.parent = some p) : t.get? j name = t.get? p name := by
  rw [get?, ht.resolve_outward hs h hp, get?]

theorem get?_of_size_le (h : t.size ≤ j) (name : String) : t.get? j name = none := by
  have hnone : t.scopes[j]? = none := Array.getElem?_eq_none h
  have hfound : t.resolve name j = none := by rw [resolve, hnone]
  simp [get?, hfound]

/-- `resolve` finds a name in a scope just if that scope binds it and is the first on the way
    outward to do so. -/
theorem Rooted.resolve_eq_some_iff (ht : t.Rooted) : t.resolve name i = some j ↔
    t.Sees name j i ∧ ∃ s, t.scopes[j]? = some s ∧ (s.find? name).isSome := by
  constructor
  · intro h
    refine ⟨?_, find?_isSome_of_resolve h⟩
    fun_induction resolve t name i with
    | case1 => cases h
    | case2 i s hs hname => cases h; exact .here (getElem?_isSome_iff.1 ⟨s, hs⟩)
    | case3 => cases h
    | case4 i s hs hname p hp hlt ih => exact .outward hs (by simpa using hname) hp (ih h)
    | case5 => cases h
  · rintro ⟨hsees, s, hs, hname⟩
    induction hsees with
    | here => rw [resolve, hs]; simp [hname]
    | outward hs' h hp _ ih => rw [ht.resolve_outward hs' h hp, ih]

/-- What `contains` finds is found in the tree, so a name has a value where it is bound. -/
theorem isSome_get? (t : ScopeTree) (i : Nat) (name : String) :
    (t.get? i name).isSome = t.contains i name := by
  unfold get? contains
  cases hfound : t.resolve name i with
  | none => rfl
  | some j =>
    obtain ⟨s, hs, hname⟩ := find?_isSome_of_resolve hfound
    simp [hs, hname]

/-! ## Declarations -/

theorem getElem?_define_self (hs : t.scopes[i]? = some s) (name : String) (v : Value) :
    (t.define i name v).scopes[i]? = some (s.bind name v) := by
  rw [getElem?_define, if_pos rfl, hs, Option.map_some]

theorem getElem?_define_ne (h : i ≠ j) (name : String) (v : Value) :
    (t.define i name v).scopes[j]? = t.scopes[j]? := by
  rw [getElem?_define, if_neg h]

/-- What `define` binds is found from where it is seen. -/
theorem Rooted.get?_define (ht : t.Rooted) (v : Value) (h : t.Sees name i j) :
    (t.define i name v).get? j name = some v := by
  induction h with
  | here hi =>
    obtain ⟨s, hs⟩ := getElem?_isSome_iff.2 hi
    exact get?_of_find? (getElem?_define_self hs name v) (by simp)
  | @outward j p s hs h hp _ ih =>
    by_cases hij : i = j
    · subst hij
      exact get?_of_find? (getElem?_define_self hs name v) (by simp)
    · have hs' := (getElem?_define_ne hij name v).trans hs
      rw [(ht.define i name v).get?_outward hs' h hp, ih]

/-- From where it is not seen, or under another name, the same is found as before. -/
theorem Rooted.get?_define_other (ht : t.Rooted) (v : Value)
    (h : ¬ (other = name ∧ t.Sees name i j)) :
    (t.define i name v).get? j other = t.get? j other := by
  induction j using Nat.strongRecOn with
  | ind j ih =>
    by_cases hj : j < t.size
    · obtain ⟨s, hs⟩ := getElem?_isSome_iff.2 hj
      -- the scope itself binds the name to the same value as before, or to none as before
      obtain ⟨s', hs', hfind, hparent⟩ : ∃ s', (t.define i name v).scopes[j]? = some s' ∧
          s'.find? other = s.find? other ∧ s'.parent = s.parent := by
        by_cases hij : i = j
        · subst hij
          have hne : other ≠ name := fun hname => h ⟨hname, .here hj⟩
          exact ⟨_, getElem?_define_self hs name v, by simp [hne], rfl⟩
        · exact ⟨s, (getElem?_define_ne hij name v).trans hs, rfl, rfl⟩
      cases hfound : s.find? other with
      | some w => rw [get?_of_find? hs' (hfind.trans hfound), get?_of_find? hs hfound]
      | none =>
        cases hp : s.parent with
        | none =>
          rw [get?_outermost hs' (hfind.trans hfound) (hparent.trans hp),
            get?_outermost hs hfound hp]
        | some p =>
          rw [(ht.define i name v).get?_outward hs' (hfind.trans hfound) (hparent.trans hp),
            ht.get?_outward hs hfound hp]
          refine ih p (ht.older ⟨s, hs, hp⟩) ?_
          rintro ⟨rfl, hsees⟩
          exact h ⟨rfl, .outward hs hfound hp hsees⟩
    · have hle := Nat.le_of_not_lt hj
      rw [get?_of_size_le hle, get?_of_size_le (by rwa [size_define])]

/-! ## Assignments -/

/-- An assignment by `assign?` shows wherever the name is found in the same scope. -/
theorem Rooted.get?_assign (ht : t.Rooted) {t' : ScopeTree} (h : t.assign? i name v = some t')
    (j : Nat) (other : String) : t'.get? j other =
      if other = name ∧ t.resolve name j = t.resolve name i then some v else t.get? j other := by
  obtain ⟨k, hk, rfl⟩ := Option.map_eq_some_iff.1 h
  have hbound := (ht.resolve_eq_some_iff.1 hk).2
  have hsees : t.Sees name k j ↔ t.resolve name j = t.resolve name i := by
    rw [hk, ht.resolve_eq_some_iff]
    exact ⟨fun hsees => ⟨hsees, hbound⟩, And.left⟩
  by_cases hseen : other = name ∧ t.resolve name j = t.resolve name i
  · rw [if_pos hseen, hseen.1]
    exact ht.get?_define v (hsees.2 hseen.2)
  · rw [if_neg hseen]
    exact ht.get?_define_other v fun ⟨hname, h⟩ => hseen ⟨hname, hsees.1 h⟩

/-- `assign?` leaves the names of all scopes as they are. -/
theorem map_names_assign {t' : ScopeTree} (h : t.assign? i name v = some t') (j : Nat) :
    (t'.scopes[j]?).map Scope.names = (t.scopes[j]?).map Scope.names := by
  obtain ⟨k, hk, rfl⟩ := Option.map_eq_some_iff.1 h
  obtain ⟨s, hs, hname⟩ := find?_isSome_of_resolve hk
  by_cases hkj : k = j
  · subst hkj
    rw [getElem?_define_self hs, hs, Option.map_some, Option.map_some, Scope.names_bind,
      if_pos (Scope.mem_names_of_find? hname)]
  · rw [getElem?_define_ne hkj]

/-! ## New scopes -/

theorem getElem?_child_of_lt (i : Nat) (hj : j < t.size) :
    (t.child i).scopes[j]? = t.scopes[j]? := by
  rw [getElem?_child, if_neg (Nat.ne_of_lt hj)]

/-- From the scopes that are there `child` changes nothing of what is found. -/
theorem get?_child (i : Nat) (hj : j < t.size) (name : String) :
    (t.child i).get? j name = t.get? j name := by
  have hfound : (t.child i).resolve name j = t.resolve name j := by
    fun_induction resolve t name j with
    | case1 j hs =>
      obtain ⟨s, hsome⟩ := getElem?_isSome_iff.2 hj
      cases hs.symm.trans hsome
    | case2 j s hs hname => rw [resolve, getElem?_child_of_lt i hj, hs]; simp [hname]
    | case3 j s hs hname hp => rw [resolve, getElem?_child_of_lt i hj, hs]; simp [hname, hp]
    | case4 j s hs hname p hp hlt ih =>
      rw [resolve, getElem?_child_of_lt i hj, hs]
      simpa [hname, hp, hlt] using ih (Nat.lt_trans hlt hj)
    | case5 j s hs hname p hp hlt =>
      rw [resolve, getElem?_child_of_lt i hj, hs]
      simp [hname, hp, hlt]
  unfold get?
  rw [hfound]
  cases hk : t.resolve name j with
  | none => rfl
  | some k =>
    obtain ⟨s, hs, -⟩ := find?_isSome_of_resolve hk
    simp only [Option.bind_eq_bind, Option.bind_some,
      getElem?_child_of_lt i (getElem?_isSome_iff.1 ⟨s, hs⟩)]

/-- The new scope that `child` opens is empty and lies inside the scope `i`, so that what is found
    from there is found from it. -/
theorem Rooted.opened (ht : t.Rooted) (hi : i < t.size) :
    (∃ s, (t.child i).scopes[t.size]? = some s ∧ s.parent = some i ∧ ∀ name, s.find? name = none) ∧
      ∀ name, (t.child i).get? t.size name = t.get? i name := by
  have hs : (t.child i).scopes[t.size]? = some { parent := some i, bindings := [] } := by
    rw [getElem?_child, if_pos rfl]
  refine ⟨⟨_, hs, rfl, fun _ => rfl⟩, fun name => ?_⟩
  rw [(ht.child hi).get?_outward hs rfl rfl, get?_child i hi]

/-! ## Trees that have grown by actions -/

/-- An action binds its `entry?`, adds a scope, or does nothing. -/
theorem perform_cases (t : ScopeTree) (a : ScopeAction) :
    (∃ entry, a.entry? t = some entry ∧ entry.scope < t.size ∧
      t.perform a = t.define entry.scope entry.name entry.value) ∨
    (a.entry? t = none ∧ ∃ i < t.size, t.perform a = t.child i) ∨
    (a.entry? t = none ∧ t.perform a = t) := by
  unfold perform
  by_cases hscope : a.scope < t.size
  · rw [if_pos hscope]
    cases a with
    | child i => exact .inr (.inl ⟨rfl, i, hscope, rfl⟩)
    | define i name v => exact .inl ⟨⟨i, name, v⟩, if_pos hscope, hscope, rfl⟩
    | assign i name v =>
      cases hfound : t.resolve name i with
      | none => exact .inr (.inr (by simp [ScopeAction.entry?, assign?, hfound]))
      | some j =>
        obtain ⟨s, hs, -⟩ := find?_isSome_of_resolve hfound
        refine .inl ⟨⟨j, name, v⟩, by simp [ScopeAction.entry?, hfound],
          getElem?_isSome_iff.1 ⟨s, hs⟩, by simp [assign?, hfound]⟩
    | get i name => exact .inr (.inr ⟨rfl, rfl⟩)
    | contains i name => exact .inr (.inr ⟨rfl, rfl⟩)
  · rw [if_neg hscope]
    refine .inr (.inr ⟨?_, rfl⟩)
    cases a with
    | define i name v => exact if_neg hscope
    | assign i name v =>
      have hnone : t.scopes[i]? = none := Array.getElem?_eq_none (Nat.le_of_not_lt hscope)
      have hfound : t.resolve name i = none := by rw [resolve, hnone]
      simp [ScopeAction.entry?, hfound]
    | _ => rfl

theorem rooted_built (history : List ScopeAction) : (built history).Rooted := by
  induction history with
  | nil => exact .root
  | cons a earlier ih =>
    rw [built]
    rcases (built earlier).perform_cases a with ⟨entry, -, -, h⟩ | ⟨-, i, hi, h⟩ | ⟨-, h⟩
    · rw [h]; exact ih.define ..
    · rw [h]; exact ih.child hi
    · rw [h]; exact ih

/-- A scope binds a name to the `latest?` value that was bound to it there, and to none where there
    was no such. -/
theorem latest?_eq (history : List ScopeAction) (i : Nat) (name : String) :
    latest? history i name = ((built history).scopes[i]?).bind (·.find? name) := by
  induction history with
  | nil =>
    cases i with
    | zero => rfl
    | succ i => rfl
  | cons a earlier ih =>
    rw [latest?, built, ih]
    rcases (built earlier).perform_cases a with ⟨entry, he, hlt, h⟩ | ⟨he, k, hk, h⟩ | ⟨he, h⟩
    · obtain ⟨s, hs⟩ := getElem?_isSome_iff.2 hlt
      simp only [he, h]
      by_cases hscope : entry.scope = i
      · subst hscope
        rw [getElem?_define_self hs, hs, Option.bind_some, Option.bind_some, Scope.find?_bind]
        simp [eq_comm]
      · rw [getElem?_define_ne hscope, if_neg fun hboth => hscope hboth.1]
    · simp only [he, h]
      by_cases hnew : i = (built earlier).size
      · -- nothing has been bound in the new scope, neither before it was there nor since
        have hnone : (built earlier).scopes[i]? = none :=
          Array.getElem?_eq_none (Nat.le_of_eq hnew.symm)
        rw [getElem?_child, if_pos hnew, hnone]
        rfl
      · rw [getElem?_child, if_neg hnew]
    · simp only [he, h]

theorem Rooted.behaves (ht : t.Rooted) : t.Behaves where
  found := ht.resolve_eq_some_iff
  get := t.isSome_get?
  define := ht.get?_define
  define_other := ht.get?_define_other
  assign := t.assign?_isSome
  assigned h := ⟨ht.get?_assign h, map_names_assign h⟩
  failing := by
    intro i name h
    refine ⟨ite_self t, fun v => ?_⟩
    have hfails : t.assign? i name v = none := by
      rw [← Option.isNone_iff_eq_none, ← Option.not_isSome, assign?_isSome, h]
      rfl
    simp [perform, hfails]
  child i _ hj := ⟨getElem?_child_of_lt i hj, get?_child i hj⟩
  opened := ht.opened

/-- In every tree that is `built` by actions the operations have just these effects on what is found
    from its scopes, and what is found is the `latest?` value that was bound in the scope in which
    the name is found. -/
theorem behaves_of_built (history : List ScopeAction) :
    (built history).Behaves ∧ ∀ i name, (built history).get? i name =
      ((built history).resolve name i).bind fun j => latest? history j name := by
  refine ⟨(rooted_built history).behaves, fun i name => ?_⟩
  simp only [latest?_eq]
  rfl

/-- A declaration in the middle of a chain, and an assignment from below it: the one shows below,
    the other shows in the middle, and the outermost scope keeps its own. -/
example :
    let t := built [.assign 2 "x" (.bool true), .define 1 "x" .nil, .child 1, .child 0,
      .define 0 "x" (.str "a")]
    t.get? 2 "x" = some (.bool true) ∧ t.get? 1 "x" = some (.bool true) ∧
      t.get? 0 "x" = some (.str "a") := by
  cbv

end ScopeTree

end Scripting
