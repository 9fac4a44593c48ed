import Scripting.Proofs.Grammar.Placing
import Scripting.Proofs.Grammar.Spelling

set_option autoImplicit false

/-! # Corresponding programs

Two trees of one shape correspond if their literals and their positions do, each as a
`Correspondence` tells. A tree can correspond to itself, and this then says of all its literals and
positions what is told of them. It can also correspond to the tree with its nodes placed elsewhere.
What corresponding tokens are read as and what corresponding programs do is found out once for all
such cases. -/

namespace Scripting

/-! ## Correspondence -/

/-- Which literals of two trees correspond, by `literal`, and which positions. A position at which a
    program may turn out to be at fault is a `point`, seen together with the word that stands there.
    Of tokens from which trees are read, more may be told than their positions. -/
structure Correspondence where
  literal : Value → Value → Prop
  point : Option Word → Position → Position → Prop
  token : Token → Token → Prop := fun _ _ => True

mutual

/-- Whether two expressions correspond as `k` tells. -/
def Expr.Corresponds (k : Correspondence) : Expr → Expr → Prop
  | .literal v p, .literal v' p' => k.literal v v' ∧ k.point none p p'
  | .identifier name p, .identifier name' p' => name = name' ∧ k.point (some (.name name)) p p'
  | .unary op e p, .unary op' e' p' =>
    op = op' ∧ e.Corresponds k e' ∧ k.point (some (.operator op.sign)) p p'
  | .binary op l r p, .binary op' l' r' p' =>
    op = op' ∧ l.Corresponds k l' ∧ r.Corresponds k r' ∧
      k.point (some (.operator op.spelling)) p p'
  | .logical op l r p, .logical op' l' r' p' =>
    op = op' ∧ l.Corresponds k l' ∧ r.Corresponds k r' ∧ k.point none p p'
  | .call e es p, .call e' es' p' =>
    e.Corresponds k e' ∧ Expr.AllCorrespond k es es' ∧ k.point (some (.mark "(")) p p'
  | .assignment name e p, .assignment name' e' p' =>
    name = name' ∧ e.Corresponds k e' ∧ k.point (some (.name name)) p p'
  | .grouping e p, .grouping e' p' => e.Corresponds k e' ∧ k.point none p p'
  | .stray written, .stray written' => written = written'
  | _, _ => False

/-- Whether the expressions of two lists correspond one by one. -/
def Expr.AllCorrespond (k : Correspondence) : List Expr → List Expr → Prop
  | [], [] => True
  | e :: es, e' :: es' => e.Corresponds k e' ∧ Expr.AllCorrespond k es es'
  | _, _ => False

end

mutual

/-- Whether two statements correspond as `k` tells. -/
def Stmt.Corresponds (k : Correspondence) : Stmt → Stmt → Prop
  | .expression e p, .expression e' p' => e.Corresponds k e' ∧ k.point none p p'
  | .declaration name o p, .declaration name' o' p' =>
    name = name' ∧ Option.Rel (Expr.Corresponds k) o o' ∧ k.point none p p'
  | .block ss p, .block ss' p' => Stmt.AllCorrespond k ss ss' ∧ k.point none p p'
  | .conditional e s o p, .conditional e' s' o' p' =>
    e.Corresponds k e' ∧ s.Corresponds k s' ∧ Stmt.ElseCorresponds k o o' ∧ k.point none p p'
  | .loop e s p, .loop e' s' p' =>
    e.Corresponds k e' ∧ s.Corresponds k s' ∧ k.point none p p'
  | .function name names s p, .function name' names' s' p' =>
    name = name' ∧ names = names' ∧ s.Corresponds k s' ∧ k.point none p p'
  | .result o p, .result o' p' => Option.Rel (Expr.Corresponds k) o o' ∧ k.point none p p'
  | .print e p, .print e' p' => e.Corresponds k e' ∧ k.point none p p'
  | .jump which p, .jump which' p' => which = which' ∧ k.point none p p'
  | .stray kind written, .stray kind' written' => kind = kind' ∧ written = written'
  | _, _ => False

/-- Whether the statements of two lists correspond one by one. -/
def Stmt.AllCorrespond (k : Correspondence) : List Stmt → List Stmt → Prop
  | [], [] => True
  | s :: ss, s' :: ss' => s.Corresponds k s' ∧ Stmt.AllCorrespond k ss ss'
  | _, _ => False

/-- Whether what stands behind `else` corresponds, or is left out twice. -/
def Stmt.ElseCorresponds (k : Correspondence) : Option Stmt → Option Stmt → Prop
  | none, none => True
  | some s, some s' => s.Corresponds k s'
  | _, _ => False

end

variable {k : Correspondence}

theorem Expr.allCorrespond_iff {es es' : List Expr} :
    Expr.AllCorrespond k es es' ↔ List.Forall₂ (Expr.Corresponds k) es es' := by
  induction es generalizing es' with
  | nil => cases es' <;> simp [AllCorrespond]
  | cons e es ih => cases es' <;> simp [AllCorrespond, ih]

theorem Stmt.allCorrespond_iff {ss ss' : List Stmt} :
    Stmt.AllCorrespond k ss ss' ↔ List.Forall₂ (Stmt.Corresponds k) ss ss' := by
  induction ss generalizing ss' with
  | nil => cases ss' <;> simp [AllCorrespond]
  | cons s ss ih => cases ss' <;> simp [AllCorrespond, ih]

/-- Whether two programs correspond as `k` tells. -/
def Program.Corresponds (k : Correspondence) (p q : Program) : Prop :=
  List.Forall₂ (Stmt.Corresponds k) p q

/-! ## Trees that differ in their places -/

/-- The correspondence of a tree to the one that is `placed` by `f`. -/
def Correspondence.placing (f : Placing) : Correspondence where
  literal v v' := v' = v
  point _ p p' := p' = f p

/-- Whether trees that correspond by `k` differ at most in that the nodes of the second are placed
    by `f`. -/
structure Correspondence.Places (k : Correspondence) (f : Placing) : Prop where
  literal : ∀ {v v' : Value}, k.literal v v' → v' = v
  point : ∀ {w : Option Word} {p p' : Position}, k.point w p p' → p' = f p

theorem Correspondence.placing_places (f : Placing) : (placing f).Places f :=
  ⟨id, id⟩

section Places

variable {f : Placing}

mutual

theorem Expr.eq_placed (hk : k.Places f) : ∀ {e e' : Expr}, e.Corresponds k e' → e' = e.placed f
  | .literal _ _, .literal _ _, ⟨hv, hp⟩ => by rw [placed, hk.literal hv, hk.point hp]
  | .identifier _ _, .identifier _ _, ⟨hname, hp⟩ => by rw [placed, hname, hk.point hp]
  | .unary _ _ _, .unary _ _ _, ⟨hop, he, hp⟩ => by
    rw [placed, hop, eq_placed hk he, hk.point hp]
  | .binary _ _ _ _, .binary _ _ _ _, ⟨hop, hl, hr, hp⟩ => by
    rw [placed, hop, eq_placed hk hl, eq_placed hk hr, hk.point hp]
  | .logical _ _ _ _, .logical _ _ _ _, ⟨hop, hl, hr, hp⟩ => by
    rw [placed, hop, eq_placed hk hl, eq_placed hk hr, hk.point hp]
  | .call _ _ _, .call _ _ _, ⟨he, hes, hp⟩ => by
    rw [placed, eq_placed hk he, eq_placedAll hk hes, hk.point hp]
  | .assignment _ _ _, .assignment _ _ _, ⟨hname, he, hp⟩ => by
    rw [placed, hname, eq_placed hk he, hk.point hp]
  | .grouping _ _, .grouping _ _, ⟨he, hp⟩ => by rw [placed, eq_placed hk he, hk.point hp]
  | .stray _, .stray _, h => by rw [placed, h]

theorem Expr.eq_placedAll (hk : k.Places f) :
    ∀ {es es' : List Expr}, Expr.AllCorrespond k es es' → es' = Expr.placedAll f es
  | [], [], _ => rfl
  | _ :: _, _ :: _, ⟨he, hes⟩ => by rw [placedAll, eq_placed hk he, eq_placedAll hk hes]

end

theorem Expr.eq_map_placed (hk : k.Places f) {o o' : Option Expr}
    (h : Option.Rel (Expr.Corresponds k) o o') : o' = o.map (Expr.placed f) := by
  cases h with
  | none => rfl
  | some he => rw [Option.map_some, eq_placed hk he]

mutual

theorem Stmt.eq_placed (hk : k.Places f) : ∀ {s s' : Stmt}, s.Corresponds k s' → s' = s.placed f
  | .expression _ _, .expression _ _, ⟨he, hp⟩ => by
    rw [placed, Expr.eq_placed hk he, hk.point hp]
  | .declaration _ _ _, .declaration _ _ _, ⟨hname, ho, hp⟩ => by
    rw [placed, hname, Expr.eq_map_placed hk ho, hk.point hp]
  | .block _ _, .block _ _, ⟨hss, hp⟩ => by rw [placed, eq_placedAll hk hss, hk.point hp]
  | .conditional _ _ _ _, .conditional _ _ _ _, ⟨he, hs, ho, hp⟩ => by
    rw [placed, Expr.eq_placed hk he, eq_placed hk hs, eq_placedOption hk ho, hk.point hp]
  | .loop _ _ _, .loop _ _ _, ⟨he, hs, hp⟩ => by
    rw [placed, Expr.eq_placed hk he, eq_placed hk hs, hk.point hp]
  | .function _ _ _ _, .function _ _ _ _, ⟨hname, hnames, hs, hp⟩ => by
    rw [placed, hname, hnames, eq_placed hk hs, hk.point hp]
  | .result _ _, .result _ _, ⟨ho, hp⟩ => by rw [placed, Expr.eq_map_placed hk ho, hk.point hp]
  | .print _ _, .print _ _, ⟨he, hp⟩ => by rw [placed, Expr.eq_placed hk he, hk.point hp]
  | .jump _ _, .jump _ _, ⟨hwhich, hp⟩ => by rw [placed, hwhich, hk.point hp]
  | .stray _ _, .stray _ _, ⟨hkind, hwritten⟩ => by rw [placed, hkind, hwritten]

theorem Stmt.eq_placedAll (hk : k.Places f) :
    ∀ {ss ss' : List Stmt}, Stmt.AllCorrespond k ss ss' → ss' = Stmt.placedAll f ss
  | [], [], _ => rfl
  | _ :: _, _ :: _, ⟨hs, hss⟩ => by rw [placedAll, eq_placed hk hs, eq_placedAll hk hss]

theorem Stmt.eq_placedOption (hk : k.Places f) :
    ∀ {o o' : Option Stmt}, Stmt.ElseCorresponds k o o' → o' = Stmt.placedOption f o
  | none, none, _ => rfl
  | some _, some _, h => by rw [placedOption, eq_placed hk h]

end

end Places

section Placed

variable {f g : Placing}

mutual

/-- A tree placed in two ways corresponds to itself if every `literal` does and every `point`. -/
theorem Expr.placed_corresponds_placed (hliteral : ∀ v, k.literal v v)
    (hpoint : ∀ w p, k.point w (f p) (g p)) : ∀ e : Expr, (e.placed f).Corresponds k (e.placed g)
  | .literal v p => ⟨hliteral v, hpoint none p⟩
  | .identifier _ p => ⟨rfl, hpoint _ p⟩
  | .unary _ e p => ⟨rfl, e.placed_corresponds_placed hliteral hpoint, hpoint _ p⟩
  | .binary _ l r p =>
    ⟨rfl, l.placed_corresponds_placed hliteral hpoint,
      r.placed_corresponds_placed hliteral hpoint, hpoint _ p⟩
  | .logical _ l r p =>
    ⟨rfl, l.placed_corresponds_placed hliteral hpoint,
      r.placed_corresponds_placed hliteral hpoint, hpoint _ p⟩
  | .call e es p =>
    ⟨e.placed_corresponds_placed hliteral hpoint,
      placedAll_allCorrespond_placedAll hliteral hpoint es, hpoint _ p⟩
  | .assignment _ e p => ⟨rfl, e.placed_corresponds_placed hliteral hpoint, hpoint _ p⟩
  | .grouping e p => ⟨e.placed_corresponds_placed hliteral hpoint, hpoint none p⟩
  | .stray _ => rfl

theorem Expr.placedAll_allCorrespond_placedAll (hliteral : ∀ v, k.literal v v)
    (hpoint : ∀ w p, k.point w (f p) (g p)) :
    ∀ es : List Expr, Expr.AllCorrespond k (Expr.placedAll f es) (Expr.placedAll g es)
  | [] => trivial
  | e :: rest =>
    ⟨e.placed_corresponds_placed hliteral hpoint,
      placedAll_allCorrespond_placedAll hliteral hpoint rest⟩

end

theorem Expr.rel_map_placed (hliteral : ∀ v, k.literal v v)
    (hpoint : ∀ w p, k.point w (f p) (g p)) (o : Option Expr) :
    Option.Rel (Expr.Corresponds k) (o.map (Expr.placed f)) (o.map (Expr.placed g)) := by
  cases o with
  | none => exact .none
  | some e => exact .some (e.placed_corresponds_placed hliteral hpoint)

mutual

theorem Stmt.placed_corresponds_placed (hliteral : ∀ v, k.literal v v)
    (hpoint : ∀ w p, k.point w (f p) (g p)) : ∀ s : Stmt, (s.placed f).Corresponds k (s.placed g)
  | .expression e p => ⟨e.placed_corresponds_placed hliteral hpoint, hpoint none p⟩
  | .declaration _ o p => ⟨rfl, Expr.rel_map_placed hliteral hpoint o, hpoint none p⟩
  | .block ss p => ⟨placedAll_allCorrespond_placedAll hliteral hpoint ss, hpoint none p⟩
  | .conditional e s o p =>
    ⟨e.placed_corresponds_placed hliteral hpoint, s.placed_corresponds_placed hliteral hpoint,
      placedOption_elseCorresponds_placedOption hliteral hpoint o, hpoint none p⟩
  | .loop e s p =>
    ⟨e.placed_corresponds_placed hliteral hpoint, s.placed_corresponds_placed hliteral hpoint,
      hpoint none p⟩
  | .function _ _ s p => ⟨rfl, rfl, s.placed_corresponds_placed hliteral hpoint, hpoint none p⟩
  | .result o p => ⟨Expr.rel_map_placed hliteral hpoint o, hpoint none p⟩
  | .print e p => ⟨e.placed_corresponds_placed hliteral hpoint, hpoint none p⟩
  | .jump _ p => ⟨rfl, hpoint none p⟩
  | .stray _ _ => ⟨rfl, rfl⟩

theorem Stmt.placedAll_allCorrespond_placedAll (hliteral : ∀ v, k.literal v v)
    (hpoint : ∀ w p, k.point w (f p) (g p)) :
    ∀ ss : List Stmt, Stmt.AllCorrespond k (Stmt.placedAll f ss) (Stmt.placedAll g ss)
  | [] => trivial
  | s :: rest =>
    ⟨s.placed_corresponds_placed hliteral hpoint,
      placedAll_allCorrespond_placedAll hliteral hpoint rest⟩

theorem Stmt.placedOption_elseCorresponds_placedOption (hliteral : ∀ v, k.literal v v)
    (hpoint : ∀ w p, k.point w (f p) (g p)) :
    ∀ o : Option Stmt, Stmt.ElseCorresponds k (Stmt.placedOption f o) (Stmt.placedOption g o)
  | none => trivial
  | some s => s.placed_corresponds_placed hliteral hpoint

end

end Placed

/-- A tree corresponds to itself if every `literal` does and every `point`. -/
theorem Expr.corresponds_self (hliteral : ∀ v, k.literal v v) (hpoint : ∀ w p, k.point w p p)
    (e : Expr) : e.Corresponds k e := by
  simpa using e.placed_corresponds_placed (f := id) (g := id) hliteral hpoint

theorem Stmt.corresponds_self (hliteral : ∀ v, k.literal v v) (hpoint : ∀ w p, k.point w p p)
    (s : Stmt) : s.Corresponds k s := by
  simpa using s.placed_corresponds_placed (f := id) (g := id) hliteral hpoint

/-- An `unplaced` tree does not tell where it was placed. -/
@[simp] theorem Stmt.unplaced_placed (f : Placing) (s : Stmt) :
    (s.placed f).unplaced = s.unplaced := by
  have hplaced := s.placed_corresponds_placed (k := .placing fun _ => .unknown) (f := f)
    (g := fun _ => .unknown) (fun _ => rfl) fun _ _ => rfl
  rw [← placed_unknown, ← placed_unknown, eq_placed (Correspondence.placing_places _) hplaced]

end Scripting
