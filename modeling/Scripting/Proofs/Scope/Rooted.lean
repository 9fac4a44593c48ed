import Mathlib.Logic.Relation
import Scripting.ScopeTree

set_option autoImplicit false

/-! # Trees of scopes with one root

A tree is `ScopeTree.Rooted` if every scope but the outermost one lies inside an older scope. So a
way outward never comes back to where it has been, and it ends at the outermost scope. A search
outward ends as well, although nothing bounds it but the tree itself; the check that `resolve` makes
on its way, that a scope is older than the one before it, never fails. -/

namespace Scripting.ScopeTree

open Relation

variable {t t' : ScopeTree} {i j p : Nat} {name : String}

/-- Whether the scope `i` lies directly inside the scope `p`. -/
def Inside (t : ScopeTree) (i p : Nat) : Prop :=
  ∃ s, t.scopes[i]? = some s ∧ s.parent = some p

/-- Whether the tree `t` has one outermost scope, the oldest one, and every other scope lies inside
    an older one. -/
structure Rooted (t : ScopeTree) : Prop where
  outermost : ∃ s, t.scopes[0]? = some s ∧ s.parent = none
  only : ∀ {i : Nat} {s : Scope}, t.scopes[i]? = some s → s.parent = none → i = 0
  older : ∀ {i p : Nat}, t.Inside i p → p < i

/-- Whether the later tree `t'` has the scopes of `t`, each inside the same scope as before. -/
def Keeps (t t' : ScopeTree) : Prop :=
  ∀ ⦃i : Nat⦄ ⦃s : Scope⦄, t.scopes[i]? = some s →
    ∃ s', t'.scopes[i]? = some s' ∧ s'.parent = s.parent

theorem getElem?_isSome_iff : (∃ s, t.scopes[i]? = some s) ↔ i < t.size := by
  rw [← Option.isSome_iff_exists]
  simp [size]

/-! ## Keeping the scopes -/

namespace Keeps

theorem refl (t : ScopeTree) : t.Keeps t :=
  fun _ s hs => ⟨s, hs, rfl⟩

theorem trans {t'' : ScopeTree} (h : t.Keeps t') (h' : t'.Keeps t'') : t.Keeps t'' := by
  intro i s hs
  obtain ⟨s', hs', hparent⟩ := h hs
  obtain ⟨s'', hs'', hparent'⟩ := h' hs'
  exact ⟨s'', hs'', hparent'.trans hparent⟩

theorem child (t : ScopeTree) (i : Nat) : t.Keeps (t.child i) := by
  intro j s hs
  have hj : j ≠ t.size := Nat.ne_of_lt (getElem?_isSome_iff.1 ⟨s, hs⟩)
  exact ⟨s, by rw [getElem?_child, if_neg hj, hs], rfl⟩

theorem define (t : ScopeTree) (i : Nat) (name : String) (v : Value) :
    t.Keeps (t.define i name v) := by
  intro j s hs
  rw [getElem?_define, hs]
  split
  · exact ⟨s.bind name v, rfl, rfl⟩
  · exact ⟨s, rfl, rfl⟩

theorem size_le (h : t.Keeps t') : t.size ≤ t'.size := by
  refine Nat.le_of_not_lt fun hlast => ?_
  obtain ⟨s, hs⟩ := getElem?_isSome_iff.2 hlast
  obtain ⟨s', hs', -⟩ := h hs
  exact absurd (getElem?_isSome_iff.1 ⟨s', hs'⟩) (Nat.lt_irrefl _)

/-- What is around a scope, its `chain`, stays around it. -/
theorem chain_eq (h : t.Keeps t') (hi : i < t.size) (ht : t.Rooted) :
    t'.chain i = t.chain i := by
  fun_induction chain t i with
  | case1 i hs =>
    obtain ⟨s, hsome⟩ := getElem?_isSome_iff.2 hi
    cases hs.symm.trans hsome
  | case2 i s hs hp =>
    obtain ⟨s', hs', hparent⟩ := h hs
    rw [chain, hs']
    simp only [hparent, hp]
  | case3 i s hs p hp hlt ih =>
    obtain ⟨s', hs', hparent⟩ := h hs
    rw [chain, hs']
    simp only [hparent, hp, if_pos hlt, ih (Nat.lt_trans hlt hi)]
  | case4 i s hs p hp hlt => exact absurd (ht.older ⟨s, hs, hp⟩) hlt

end Keeps

/-! ## Growing from the root -/

namespace Rooted

theorem root : ScopeTree.root.Rooted where
  outermost := ⟨_, rfl, rfl⟩
  only := by
    intro i s hs _
    match i, hs with
    | 0, _ => rfl
  older := by
    rintro i p ⟨s, hs, hp⟩
    match i, hs with
    | 0, hs => cases hs; cases hp

theorem size_pos (h : t.Rooted) : 0 < t.size := by
  obtain ⟨s, hs, -⟩ := h.outermost
  exact getElem?_isSome_iff.1 ⟨s, hs⟩

/-- A new scope, which `child` opens, lies inside one that is there. -/
theorem child (h : t.Rooted) (hi : i < t.size) : (t.child i).Rooted where
  outermost := by
    obtain ⟨s, hs, hp⟩ := h.outermost
    exact ⟨s, by rw [getElem?_child, if_neg (Nat.ne_of_lt h.size_pos), hs], hp⟩
  only := by
    intro j s hs hp
    rw [getElem?_child] at hs
    split at hs
    · cases hs; cases hp
    · exact h.only hs hp
  older := by
    rintro j p ⟨s, hs, hp⟩
    rw [getElem?_child] at hs
    split at hs
    · rename_i hj
      cases hs
      cases hp
      exact hj ▸ hi
    · exact h.older ⟨s, hs, hp⟩

theorem define (h : t.Rooted) (i : Nat) (name : String) (v : Value) :
    (t.define i name v).Rooted := by
  -- a binding is made in a scope that stays where it is
  have hback {j : Nat} {s : Scope} (hs : (t.define i name v).scopes[j]? = some s) :
      ∃ s', t.scopes[j]? = some s' ∧ s.parent = s'.parent := by
    rw [getElem?_define] at hs
    split at hs
    · obtain ⟨s', hs', rfl⟩ := Option.map_eq_some_iff.1 hs
      exact ⟨s', hs', rfl⟩
    · exact ⟨s, hs, rfl⟩
  refine ⟨?_, fun hs hp => ?_, ?_⟩
  · obtain ⟨s, hs, hp⟩ := h.outermost
    obtain ⟨s', hs', hparent⟩ := Keeps.define t i name v hs
    exact ⟨s', hs', hparent.trans hp⟩
  · obtain ⟨s', hs', hparent⟩ := hback hs
    exact h.only hs' (hparent ▸ hp)
  · rintro j p ⟨s, hs, hp⟩
    obtain ⟨s', hs', hparent⟩ := hback hs
    exact h.older ⟨s', hs', hparent ▸ hp⟩

/-! ## Ways outward -/

/-- A way outward leads to older scopes. -/
theorem lt_of_transGen (h : t.Rooted) (hway : TransGen t.Inside i j) : j < i := by
  induction hway with
  | single hp => exact h.older hp
  | tail _ hp ih => exact Nat.lt_trans (h.older hp) ih

theorem acyclic (h : t.Rooted) (i : Nat) : ¬ TransGen t.Inside i i :=
  fun hway => Nat.lt_irrefl i (h.lt_of_transGen hway)

/-- Every way outward can be gone on to the outermost scope. -/
theorem reflTransGen (h : t.Rooted) (hi : i < t.size) : ReflTransGen t.Inside i 0 := by
  induction i using Nat.strongRecOn with
  | ind i ih =>
    obtain ⟨s, hs⟩ := getElem?_isSome_iff.2 hi
    cases hp : s.parent with
    | none => rw [h.only hs hp]
    | some p =>
      have hlt := h.older ⟨s, hs, hp⟩
      exact .head ⟨s, hs, hp⟩ (ih p hlt (Nat.lt_trans hlt hi))

theorem not_inside_outermost (h : t.Rooted) (p : Nat) : ¬ t.Inside 0 p :=
  fun hp => Nat.not_lt_zero p (h.older hp)

/-- A new scope has around it what is around the scope `i` that it lies in. -/
theorem chain_child (h : t.Rooted) (hi : i < t.size) :
    (t.child i).chain t.size = t.size :: t.chain i := by
  rw [chain, getElem?_child, if_pos rfl]
  simp only [if_pos hi, (Keeps.child t i).chain_eq hi h]

end Rooted

/-! ## Searches -/

/-- A search for a name, from the scope `i` outward: the scopes are gone through one after the other
    up to one that binds the name, or up to one that lies in no other. -/
inductive Finds (t : ScopeTree) (name : String) : Nat → Option Nat → Prop
  | here {i : Nat} {s : Scope} (hs : t.scopes[i]? = some s) (h : (s.find? name).isSome) :
      Finds t name i (some i)
  | outward {i p : Nat} {s : Scope} {found : Option Nat} (hs : t.scopes[i]? = some s)
      (h : s.find? name = none) (hp : s.parent = some p) (hrest : Finds t name p found) :
      Finds t name i found
  | nowhere {i : Nat} {s : Scope} (hs : t.scopes[i]? = some s) (h : s.find? name = none)
      (hp : s.parent = none) : Finds t name i none

/-- A search from a scope that is there ends, and with what `resolve` gives. -/
theorem Rooted.finds (h : t.Rooted) (name : String) (hi : i < t.size) :
    t.Finds name i (t.resolve name i) := by
  fun_induction resolve t name i with
  | case1 i hs =>
    obtain ⟨s, hsome⟩ := getElem?_isSome_iff.2 hi
    cases hs.symm.trans hsome
  | case2 i s hs hname => exact .here hs hname
  | case3 i s hs hname hp => exact .nowhere hs (by simpa using hname) hp
  | case4 i s hs hname p hp hlt ih =>
    exact .outward hs (by simpa using hname) hp (ih (Nat.lt_trans hlt hi))
  | case5 i s hs hname p hp hlt => exact absurd (h.older ⟨s, hs, hp⟩) hlt

end Scripting.ScopeTree
