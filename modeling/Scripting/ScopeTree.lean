import Scripting.Bindings
import Scripting.Value

set_option autoImplicit false

/-! # Scopes

A `Scope` binds names to values and may lie inside another scope. The scopes of a run form a
`ScopeTree` that only grows: a scope is added inside an existing one by `child` and is never taken
away, so that a function can go on using the scope it was declared in. A name is looked up from the
inside out (`resolve`). A declaration (`define`) touches the scope it is made in and no other, and
an assignment (`assign?`) changes the nearest scope that binds the name. -/

namespace Scripting

/-! ## One scope -/

/-- A scope: the number `parent` of the scope around it, if there is one, and its `bindings`. -/
structure Scope where
  parent : Option Nat
  bindings : Bindings Value
  deriving DecidableEq, Inhabited

namespace Scope

/-- The value of `name` in this scope alone. -/
def find? (s : Scope) (name : String) : Option Value :=
  s.bindings.find? name

/-- Bind `name` to `value`, in place of what it was bound to. -/
def bind (s : Scope) (name : String) (value : Value) : Scope :=
  { s with bindings := s.bindings.put name value }

/-- `bind` changes what `find?` gives for `name` and for no `other` name. -/
@[simp] theorem find?_bind (s : Scope) (name other : String) (value : Value) :
    (s.bind name value).find? other = if other = name then some value else s.find? other :=
  Bindings.find?_put s.bindings name other value

@[simp] theorem parent_bind (s : Scope) (name : String) (value : Value) :
    (s.bind name value).parent = s.parent := rfl

end Scope

/-! ## The tree -/

/-- The scopes of a run, by number. -/
structure ScopeTree where
  scopes : Array Scope
  deriving DecidableEq, Inhabited

namespace ScopeTree

/-- A tree of one scope, number zero, with no bindings. -/
def root : ScopeTree := ⟨#[{ parent := none, bindings := [] }]⟩

/-- The number of scopes. -/
def size (t : ScopeTree) : Nat := t.scopes.size

/-- Add a scope inside the scope `i`. Its number is the size of the tree before. -/
def child (t : ScopeTree) (i : Nat) : ScopeTree :=
  ⟨t.scopes.push { parent := some i, bindings := [] }⟩

/-- Bind `name` to `value` in the scope `i`. -/
def define (t : ScopeTree) (i : Nat) (name : String) (value : Value) : ScopeTree :=
  ⟨t.scopes.modify i (·.bind name value)⟩

/-- The nearest scope from `i` outward that binds `name`. A scope lies inside an older one, and a
    link to any other scope is not followed. -/
def resolve (t : ScopeTree) (name : String) (i : Nat) : Option Nat :=
  match t.scopes[i]? with
  | none => none
  | some s =>
    if (s.find? name).isSome then some i
    -- an older scope has a smaller number, which ends the search
    else match s.parent with
      | none => none
      | some p => if p < i then resolve t name p else none
termination_by i

/-- The value of `name` as seen from the scope `i`: the one that it has in the scope that `resolve`
    finds. -/
def get? (t : ScopeTree) (i : Nat) (name : String) : Option Value := do
  let j ← t.resolve name i
  let s ← t.scopes[j]?
  s.find? name

/-- Rebind `name` in the nearest scope from `i` outward that binds it, if there is one. -/
def assign? (t : ScopeTree) (i : Nat) (name : String) (value : Value) : Option ScopeTree :=
  (t.resolve name i).map fun j => t.define j name value

/-- Whether `name` is bound as seen from the scope `i`. -/
def contains (t : ScopeTree) (i : Nat) (name : String) : Bool :=
  (t.resolve name i).isSome

/-- The numbers of the scopes from `i` outward. -/
def chain (t : ScopeTree) (i : Nat) : List Nat :=
  match t.scopes[i]? with
  | none => []
  | some s =>
    match s.parent with
    | none => [i]
    | some p => if p < i then i :: chain t p else [i]
termination_by i

/-! ## What the operations do to the scopes -/

@[simp] theorem size_child (t : ScopeTree) (i : Nat) : (t.child i).size = t.size + 1 := by
  simp [child, size]

@[simp] theorem size_define (t : ScopeTree) (i : Nat) (name : String) (value : Value) :
    (t.define i name value).size = t.size := by
  simp [define, size]

/-- `child` gives the new scope the next number and leaves the others as they are. -/
theorem getElem?_child (t : ScopeTree) (i j : Nat) :
    (t.child i).scopes[j]? =
      if j = t.size then some { parent := some i, bindings := [] } else t.scopes[j]? :=
  Array.getElem?_push

/-- `define` binds in the scope `i` and leaves the others as they are. -/
theorem getElem?_define (t : ScopeTree) (i j : Nat) (name : String) (value : Value) :
    (t.define i name value).scopes[j]? =
      if i = j then (t.scopes[j]?).map (·.bind name value) else t.scopes[j]? := by
  simp [define, Array.getElem?_modify]

/-- The scope `j` in which `resolve` finds `name` binds it. -/
theorem find?_isSome_of_resolve {t : ScopeTree} {name : String} {i j : Nat}
    (h : t.resolve name i = some j) : ∃ s, t.scopes[j]? = some s ∧ (s.find? name).isSome := by
  fun_induction resolve t name i with
  | case1 => simp at h
  | case2 i s hs hname => cases h; exact ⟨s, hs, hname⟩
  | case3 => simp at h
  | case4 i s hs hname p hp hlt ih => exact ih h
  | case5 => simp at h

/-- `assign?` succeeds for a name just if it is bound as seen from the scope `i`. -/
theorem assign?_isSome (t : ScopeTree) (i : Nat) (name : String) (value : Value) :
    (t.assign? i name value).isSome = t.contains i name := by
  simp [assign?, contains]

end ScopeTree

end Scripting
