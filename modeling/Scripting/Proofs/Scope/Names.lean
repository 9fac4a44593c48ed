import Mathlib.Data.List.Infix
import Scripting.Proofs.Evaluation.Keeping

set_option autoImplicit false

/-! # Where names come from

A scope never loses a name and never moves inside the tree, and it gains a name only by a
declaration that is made in it: `ScopeTree.KeepsNames`. Evaluating an expression declares nothing in
a scope that was there before, nor does a block or a call, which declare in new scopes; an
assignment overwrites a value. So a statement adds names to the scope it is executed in, and to no
other that was there before. -/

namespace Scripting

/-! ## The names of a scope -/

/-- The names that a scope binds, in the order in which they were first bound. -/
def Scope.names (s : Scope) : List String :=
  s.bindings.map Prod.fst

/-- `bind` adds a name where it was not bound. -/
theorem Scope.names_bind (s : Scope) (name : String) (v : Value) :
    (s.bind name v).names = if name ∈ s.names then s.names else s.names ++ [name] :=
  Bindings.map_fst_put s.bindings name v

theorem Scope.mem_names_of_find? {s : Scope} {name : String} (h : (s.find? name).isSome) :
    name ∈ s.names := by
  obtain ⟨v, hv⟩ := Option.isSome_iff_exists.1 h
  obtain ⟨before, after, hsplit, -⟩ := List.lookup_eq_some_iff.1 hv
  simp [names, hsplit]

/-! ## Trees that keep their names -/

/-- Whether every scope of the tree `t` is still there in the later tree `t'`, inside the same scope
    as before and with the names it had in their order, and has further names only if it is `free`
    to. -/
def ScopeTree.KeepsNames (t : ScopeTree) (free : Nat → Prop) (t' : ScopeTree) : Prop :=
  ∀ ⦃i : Nat⦄ ⦃s : Scope⦄, t.scopes[i]? = some s → ∃ s', t'.scopes[i]? = some s' ∧
    s'.parent = s.parent ∧ s.names <+: s'.names ∧ (¬ free i → s'.names = s.names)

namespace ScopeTree.KeepsNames

variable {t t' : ScopeTree} {free : Nat → Prop} {i : Nat} {name : String} {v : Value}

theorem refl (t : ScopeTree) (free : Nat → Prop) : t.KeepsNames free t :=
  fun _ s hs => ⟨s, hs, rfl, List.prefix_rfl, fun _ => rfl⟩

theorem size_le (h : t.KeepsNames free t') : t.size ≤ t'.size := by
  by_contra hlt
  have hlast : t'.size < t.scopes.size := Nat.lt_of_not_le hlt
  obtain ⟨s', hs', -⟩ := h (Array.getElem?_eq_getElem hlast)
  exact absurd (Array.getElem?_eq_some_iff.1 hs').1 (Nat.lt_irrefl _)

/-- A new scope, which `child` opens, leaves the others as they are. -/
theorem child (h : t.KeepsNames free t') (i : Nat) : t.KeepsNames free (t'.child i) := by
  intro j s hs
  obtain ⟨s', hs', hrest⟩ := h hs
  have hj : j ≠ t'.size := Nat.ne_of_lt (Array.getElem?_eq_some_iff.1 hs').1
  exact ⟨s', by rw [getElem?_child, if_neg hj, hs'], hrest⟩

/-- `define` may bind a name in a scope that is `free` to have it, that is new, or that has it
    already. -/
theorem define (h : t.KeepsNames free t')
    (hi : free i ∨ t.size ≤ i ∨ ∀ s, t'.scopes[i]? = some s → name ∈ s.names) :
    t.KeepsNames free (t'.define i name v) := by
  intro j s hs
  obtain ⟨s', hs', hparent, hnames, hsame⟩ := h hs
  rw [getElem?_define]
  split
  · rename_i hij
    subst hij
    refine ⟨s'.bind name v, by rw [hs', Option.map_some], hparent, ?_, fun hfree => ?_⟩
    · rw [Scope.names_bind]
      split
      · exact hnames
      · exact hnames.trans (List.prefix_append ..)
    · rcases hi with hi | hi | hi
      · exact absurd hi hfree
      · exact absurd (Array.getElem?_eq_some_iff.1 hs).1 (Nat.not_lt_of_le hi)
      · rw [Scope.names_bind, if_pos (hi s' hs'), hsame hfree]
  · exact ⟨s', hs', hparent, hnames, hsame⟩

/-- `assign?` overwrites the value of a name that is bound. -/
theorem assign {t'' : ScopeTree} (h : t.KeepsNames free t')
    (hassign : t'.assign? i name v = some t'') : t.KeepsNames free t'' := by
  obtain ⟨j, hj, rfl⟩ := Option.map_eq_some_iff.1 hassign
  refine h.define (.inr (.inr fun s hs => ?_))
  obtain ⟨s', hs', hname⟩ := find?_isSome_of_resolve hj
  rw [hs, Option.some.injEq] at hs'
  exact Scope.mem_names_of_find? (hs' ▸ hname)

end ScopeTree.KeepsNames

/-! ## Runs -/

/-- The scopes of `t` keep their names, since names are bound in scopes that are `free` to have
    them, or new. -/
def Keeping.names (t : ScopeTree) (free : Nat → Prop) : Keeping where
  literal v v' := v' = v
  point _ p p' := p' = p
  kept m := t.KeepsNames free m.scopes
  known _ _ := True
  visible _ := True
  own i := free i ∨ t.size ≤ i

theorem Keeping.names_lawful (t : ScopeTree) (free : Nat → Prop) : (names t free).Lawful where
  places := ⟨id, id⟩
  known_mono _ _ := trivial
  own_visible _ := trivial
  literal {v _} _ _ := v.within_true
  get {_ _ _ v} _ _ _ := v.within_true
  assign hm _ _ hassign := ScopeTree.KeepsNames.assign hm hassign
  define hm hi _ _ := ScopeTree.KeepsNames.define hm (hi.imp_right .inl)
  child {_ i} hm _ := ⟨.inr (ScopeTree.KeepsNames.size_le hm), ScopeTree.KeepsNames.child hm i⟩
  keep hm _ _ := ⟨hm, trivial⟩
  function {_ _ f} _ _ _ := ⟨f.body.corresponds_self (fun _ => rfl) fun _ _ => rfl, trivial⟩
  streams hm hscopes _ := by simpa only [names, hscopes] using hm

/-- On every machine `m` and for every tree, however the run ends: evaluating an expression adds no
    name to a scope that was there before, the calls that it makes included, and executing a
    statement adds names at most to the `scope` it is executed in. A `block` and a `call` add none.
    Nothing that is done to the scopes removes a name or changes which scope lies inside which. -/
theorem Machine.keepsNames (m : Machine) (rounds depth scope : Nat) :
    (∀ e : Expr, m.scopes.KeepsNames (fun _ => False)
      ((e.evaluate rounds depth scope).leaves m).scopes) ∧
    (∀ s : Stmt, m.scopes.KeepsNames (· = scope)
      ((s.execute rounds depth scope).leaves m).scopes) ∧
    (∀ (ss : List Stmt) (p : Position), m.scopes.KeepsNames (fun _ => False)
      (((Stmt.block ss p).execute rounds depth scope).leaves m).scopes) ∧
    (∀ (v : Value) (vs : List Value) (p : Position), m.scopes.KeepsNames (fun _ => False)
      (((engine rounds depth).call v vs p).leaves m).scopes) ∧
    (∀ (name : String) (v : Value) (p : Position), m.scopes.KeepsNames (fun _ => False)
      ((Run.assign scope name v p).leaves m).scopes) ∧
    (∀ (name : String) (v : Value), m.scopes.KeepsNames (· = scope)
      ((Run.define scope name v).leaves m).scopes) ∧
    m.scopes.KeepsNames (fun _ => False) ((Run.openScope scope).leaves m).scopes := by
  have hk (free : Nat → Prop) := (Keeping.names_lawful m.scopes free).beside
  have hengine (free : Nat → Prop) := engine_relates (hk free) rounds depth
  have hvalue (free : Nat → Prop) (v : Value) :
      (Keeping.names m.scopes free).beside.Values 0 v v := Keeping.values_self v.within_true
  have hkept {α : Type} {free : Nat → Prop} {Q : Nat → α → α → Prop} {r : Run α}
      (h : (Keeping.names m.scopes free).beside.Relates 0 Q r r) :
      m.scopes.KeepsNames free (r.leaves m).scopes :=
    Keeping.kept_of_relates h (Nat.zero_le _) (ScopeTree.KeepsNames.refl m.scopes free)
  refine ⟨fun e => ?_, fun s => ?_, fun ss p => ?_, fun v vs p => ?_, fun name v p => ?_,
    fun name v => ?_, ?_⟩
  · exact hkept <|
      (hengine _).evaluate trivial (e.corresponds_self (fun _ => rfl) fun _ _ => rfl)
  · exact hkept <|
      (hengine _).execute (.inl rfl) (s.corresponds_self (fun _ => rfl) fun _ _ => rfl)
  · have hblock := (Stmt.block ss p).corresponds_self (k := (Keeping.names m.scopes
      fun _ => False).toCorrespondence) (fun _ => rfl) fun _ _ => rfl
    exact hkept <| Stmt.execute_block_relates (hk _) rounds depth trivial hblock.1
  · exact hkept <|
      (hengine _).call (hvalue _ v) (List.forall₂_same.2 fun v _ => hvalue _ v) rfl
  · exact hkept <| Run.assign_relates (hk _).toSteady trivial name (hvalue _ v) rfl
  · exact hkept <| Run.define_relates (hk (· = scope)).toSteady (.inl rfl) name (hvalue _ v)
  · have hopen : (Keeping.names m.scopes fun _ => False).beside.Relates 0 _
        (Run.openScope scope) (Run.openScope scope) := Run.openScope_relates (hk _).toSteady trivial
    exact hkept hopen

end Scripting
