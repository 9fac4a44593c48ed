import Scripting.Proofs.Evaluation.Operands
import Scripting.ScopeTree

set_option autoImplicit false

/-! # Trees of scopes that agree

Two trees agree within a set of scopes, as `ScopeTree.Agrees` tells, if these scopes bind the same
values in both, apart from the numbers of functions, and lie inside scopes of the set. Names are
then looked up alike from them, and what is bound on both sides keeps the agreement. -/

namespace Scripting

variable {number : Nat → Nat}

/-! ## Functions under other numbers -/

/-- Bindings in which functions have other numbers, as `number` gives them. -/
def Bindings.renumbered (number : Nat → Nat) (bindings : Bindings Value) : Bindings Value :=
  bindings.map fun b => (b.1, b.2.renumbered number)

namespace Bindings

theorem find?_renumbered (bindings : Bindings Value) (name : String) :
    (bindings.renumbered number).find? name =
      (bindings.find? name).map (Value.renumbered number) := by
  unfold renumbered find?
  induction bindings with
  | nil => rfl
  | cons b rest ih =>
    obtain ⟨n, v⟩ := b
    cases hname : name == n <;> simp [List.lookup_cons, hname, ih]

theorem renumbered_put (bindings : Bindings Value) (name : String) (v : Value) :
    Bindings.renumbered number (put name v bindings) =
      put name (v.renumbered number) (Bindings.renumbered number bindings) := by
  unfold renumbered
  induction bindings with
  | nil => rfl
  | cons b rest ih =>
    simp only [put, List.map_cons]
    split
    · rfl
    · rw [List.map_cons, ih]

end Bindings

namespace Scope

/-- A scope in which functions have other numbers, as `number` gives them. -/
def renumbered (number : Nat → Nat) (s : Scope) : Scope :=
  { s with bindings := s.bindings.renumbered number }

/-- Whether the value `v` is bound in the scope `s` under some name. -/
def Binds (s : Scope) (v : Value) : Prop :=
  ∃ name, (name, v) ∈ s.bindings

@[simp] theorem parent_renumbered (s : Scope) : (s.renumbered number).parent = s.parent := rfl

@[simp] theorem find?_renumbered (s : Scope) (name : String) :
    (s.renumbered number).find? name = (s.find? name).map (Value.renumbered number) :=
  Bindings.find?_renumbered s.bindings name

theorem renumbered_bind (s : Scope) (name : String) (v : Value) :
    (s.bind name v).renumbered number = (s.renumbered number).bind name (v.renumbered number) := by
  simp [bind, renumbered, Bindings.renumbered_put]

theorem binds_of_find? {s : Scope} {name : String} {v : Value} (h : s.find? name = some v) :
    s.Binds v := by
  obtain ⟨before, after, hsplit, -⟩ := List.lookup_eq_some_iff.1 h
  exact ⟨name, by simp [hsplit]⟩

/-- `bind` brings one value into a scope. -/
theorem eq_or_binds_of_binds_bind {s : Scope} {name : String} {v w : Value}
    (h : (s.bind name v).Binds w) : w = v ∨ s.Binds w := by
  obtain ⟨name', hmem⟩ := h
  unfold bind at hmem
  unfold Binds
  generalize s.bindings = bindings at hmem ⊢
  induction bindings with
  | nil => simp only [Bindings.put, List.mem_singleton, Prod.mk.injEq] at hmem; exact .inl hmem.2
  | cons b rest ih =>
    simp only [Bindings.put] at hmem
    split at hmem
    · rcases List.mem_cons.1 hmem with heq | hrest
      · exact .inl (Prod.mk.inj heq).2
      · exact .inr ⟨name', List.mem_cons_of_mem _ hrest⟩
    · rcases List.mem_cons.1 hmem with heq | hrest
      · exact .inr ⟨name', heq ▸ List.mem_cons_self⟩
      · rcases ih hrest with hw | ⟨n, hn⟩
        · exact .inl hw
        · exact .inr ⟨n, List.mem_cons_of_mem _ hn⟩

/-- Where all functions keep their `number`, the scope is the same. -/
theorem renumbered_eq_self {s : Scope}
    (h : ∀ v, s.Binds v → v.Within fun id => number id = id) : s.renumbered number = s := by
  have hbindings : s.bindings.renumbered number = s.bindings :=
    (List.map_congr_left fun b hb => by
      rw [Value.renumbered_eq_self (h b.2 ⟨b.1, hb⟩), id]).trans (List.map_id _)
  simp [renumbered, hbindings]

end Scope

/-! ## Agreement -/

/-- Whether the trees `t` and `t'` have as many scopes and agree on those that are `visible`, apart
    from the `number` of functions. -/
structure ScopeTree.Agrees (visible : Nat → Prop) (number : Nat → Nat) (t t' : ScopeTree) :
    Prop where
  size : t'.size = t.size
  scope : ∀ {i : Nat}, visible i → t'.scopes[i]? = (t.scopes[i]?).map (Scope.renumbered number)
  parent : ∀ {i p : Nat} {s : Scope}, visible i → t.scopes[i]? = some s → s.parent = some p →
    visible p

namespace ScopeTree.Agrees

variable {visible : Nat → Prop} {t t' : ScopeTree} {name : String} {i : Nat}

/-- `resolve` finds a name in the same scope of both. -/
theorem resolve_eq (h : t.Agrees visible number t') (hi : visible i) :
    t'.resolve name i = t.resolve name i := by
  fun_induction resolve t name i with
  | case1 i hs => rw [resolve, h.scope hi, hs]; rfl
  | case2 i s hs hname => rw [resolve, h.scope hi, hs]; simp [hname]
  | case3 i s hs hname hp => rw [resolve, h.scope hi, hs]; simp [hname, hp]
  | case4 i s hs hname p hp hlt ih =>
    rw [resolve, h.scope hi, hs]
    simpa [hname, hp, hlt] using ih (h.parent hi hs hp)
  | case5 i s hs hname p hp hlt => rw [resolve, h.scope hi, hs]; simp [hname, hp, hlt]

/-- The scope in which `resolve` finds a name is `visible` where the search begins in a visible
    one. -/
theorem visible_of_resolve (h : t.Agrees visible number t') (hi : visible i) {j : Nat}
    (hj : t.resolve name i = some j) : visible j := by
  fun_induction resolve t name i with
  | case1 => simp at hj
  | case2 i s hs hname => cases hj; exact hi
  | case3 => simp at hj
  | case4 i s hs hname p hp hlt ih => exact ih (h.parent hi hs hp) hj
  | case5 => simp at hj

theorem get?_eq (h : t.Agrees visible number t') (hi : visible i) :
    t'.get? i name = (t.get? i name).map (Value.renumbered number) := by
  unfold get?
  rw [h.resolve_eq hi]
  cases hj : t.resolve name i with
  | none => rfl
  | some j =>
    simp only [Option.bind_eq_bind, Option.bind_some, h.scope (h.visible_of_resolve hi hj)]
    cases t.scopes[j]? <;> simp

theorem define (h : t.Agrees visible number t') (name : String) (v : Value) :
    (t.define i name v).Agrees visible number (t'.define i name (v.renumbered number)) where
  size := by simp [h.size]
  scope := by
    intro j hj
    rw [getElem?_define, getElem?_define, h.scope hj]
    split
    · cases t.scopes[j]? <;> simp [Scope.renumbered_bind]
    · rfl
  parent := by
    intro j p s hj hs hp
    rw [getElem?_define] at hs
    split at hs
    · obtain ⟨s', hs', rfl⟩ := Option.map_eq_some_iff.1 hs
      exact h.parent hj hs' hp
    · exact h.parent hj hs hp

theorem child (h : t.Agrees visible number t') (hi : visible i) :
    (t.child i).Agrees visible number (t'.child i) where
  size := by simp [h.size]
  scope := by
    intro j hj
    rw [getElem?_child, getElem?_child, h.size, h.scope hj]
    split <;> rfl
  parent := by
    intro j p s hj hs hp
    rw [getElem?_child] at hs
    split at hs
    · cases hs
      cases hp
      exact hi
    · exact h.parent hj hs hp

end ScopeTree.Agrees

end Scripting
