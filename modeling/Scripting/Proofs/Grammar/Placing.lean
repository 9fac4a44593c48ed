import Scripting.Proofs.Grammar.Unplaced

set_option autoImplicit false

/-! # Trees placed elsewhere

The positions of a tree say where its text stands and nothing else. Moving the text, or taking it
out of a longer one, gives the same tree with every position changed in one way, a `Placing`. -/

namespace Scripting

/-- A change of positions. -/
abbrev Placing := Position → Position

/-- The same place `n` lines further down. -/
def Placing.down (n : Nat) : Placing := fun p => ⟨p.line + n, p.column⟩

mutual

/-- An expression with its nodes placed elsewhere, by `f`. -/
def Expr.placed (f : Placing) : Expr → Expr
  | .literal value p => .literal value (f p)
  | .identifier name p => .identifier name (f p)
  | .unary op operand p => .unary op (operand.placed f) (f p)
  | .binary op left right p => .binary op (left.placed f) (right.placed f) (f p)
  | .logical op left right p => .logical op (left.placed f) (right.placed f) (f p)
  | .call callee arguments p => .call (callee.placed f) (Expr.placedAll f arguments) (f p)
  | .assignment name value p => .assignment name (value.placed f) (f p)
  | .grouping inner p => .grouping (inner.placed f) (f p)
  | .stray written => .stray written

/-- The expressions of a list with their nodes placed elsewhere. -/
def Expr.placedAll (f : Placing) : List Expr → List Expr
  | [] => []
  | e :: rest => e.placed f :: Expr.placedAll f rest

end

mutual

/-- A statement with its nodes placed elsewhere, by `f`. -/
def Stmt.placed (f : Placing) : Stmt → Stmt
  | .expression e p => .expression (e.placed f) (f p)
  | .declaration name initializer p => .declaration name (initializer.map (Expr.placed f)) (f p)
  | .block statements p => .block (Stmt.placedAll f statements) (f p)
  | .conditional condition thenBranch elseBranch p =>
    .conditional (condition.placed f) (thenBranch.placed f) (Stmt.placedOption f elseBranch) (f p)
  | .loop condition body p => .loop (condition.placed f) (body.placed f) (f p)
  | .function name parameters body p => .function name parameters (body.placed f) (f p)
  | .result value p => .result (value.map (Expr.placed f)) (f p)
  | .print e p => .print (e.placed f) (f p)
  | .jump which p => .jump which (f p)
  | .stray kind written => .stray kind written

/-- The statements of a list with their nodes placed elsewhere. -/
def Stmt.placedAll (f : Placing) : List Stmt → List Stmt
  | [] => []
  | s :: rest => s.placed f :: Stmt.placedAll f rest

/-- A statement that may be left out, with its nodes placed elsewhere. -/
def Stmt.placedOption (f : Placing) : Option Stmt → Option Stmt
  | none => none
  | some s => some (s.placed f)

end

/-- A program with its nodes placed elsewhere, by `f`. -/
def Program.placed (f : Placing) (p : Program) : Program :=
  p.map (Stmt.placed f)

/-! ## Nodes that stay in their places -/

mutual

@[simp] theorem Expr.placed_id : ∀ e : Expr, e.placed id = e
  | .literal _ _ => rfl
  | .identifier _ _ => rfl
  | .unary _ operand _ => by simp [placed, placed_id operand]
  | .binary _ left right _ => by simp [placed, placed_id left, placed_id right]
  | .logical _ left right _ => by simp [placed, placed_id left, placed_id right]
  | .call callee arguments _ => by simp [placed, placed_id callee, placedAll_id arguments]
  | .assignment _ value _ => by simp [placed, placed_id value]
  | .grouping inner _ => by simp [placed, placed_id inner]
  | .stray _ => rfl

@[simp] theorem Expr.placedAll_id : ∀ es : List Expr, Expr.placedAll id es = es
  | [] => rfl
  | e :: rest => by simp [placedAll, placed_id e, placedAll_id rest]

end

@[simp] theorem Expr.map_placed_id (o : Option Expr) : o.map (Expr.placed id) = o := by
  cases o <;> simp

mutual

@[simp] theorem Stmt.placed_id : ∀ s : Stmt, s.placed id = s
  | .expression _ _ => by simp [placed]
  | .declaration _ _ _ => by simp [placed]
  | .block statements _ => by simp [placed, placedAll_id statements]
  | .conditional _ thenBranch elseBranch _ => by
    simp [placed, placed_id thenBranch, placedOption_id elseBranch]
  | .loop _ body _ => by simp [placed, placed_id body]
  | .function _ _ body _ => by simp [placed, placed_id body]
  | .result _ _ => by simp [placed]
  | .print _ _ => by simp [placed]
  | .jump _ _ => rfl
  | .stray _ _ => rfl

@[simp] theorem Stmt.placedAll_id : ∀ ss : List Stmt, Stmt.placedAll id ss = ss
  | [] => rfl
  | s :: rest => by simp [placedAll, placed_id s, placedAll_id rest]

@[simp] theorem Stmt.placedOption_id : ∀ o : Option Stmt, Stmt.placedOption id o = o
  | none => rfl
  | some s => by simp [placedOption, placed_id s]

end

@[simp] theorem Program.placed_id (p : Program) : p.placed id = p := by
  induction p with
  | nil => rfl
  | cons s rest ih =>
    have hcons : Program.placed id (s :: rest) = s.placed id :: Program.placed id rest := rfl
    rw [hcons, s.placed_id, ih]

/-! ## Nodes all in one place -/

mutual

/-- An `unplaced` tree has all its nodes in the place that stands for none. -/
theorem Expr.placed_unknown : ∀ e : Expr, e.placed (fun _ => .unknown) = e.unplaced
  | .literal _ _ => rfl
  | .identifier _ _ => rfl
  | .unary _ operand _ => by simp [placed, unplaced, placed_unknown operand]
  | .binary _ left right _ => by
    simp [placed, unplaced, placed_unknown left, placed_unknown right]
  | .logical _ left right _ => by
    simp [placed, unplaced, placed_unknown left, placed_unknown right]
  | .call callee arguments _ => by
    simp [placed, unplaced, placed_unknown callee, placedAll_unknown arguments]
  | .assignment _ value _ => by simp [placed, unplaced, placed_unknown value]
  | .grouping inner _ => by simp [placed, unplaced, placed_unknown inner]
  | .stray _ => rfl

theorem Expr.placedAll_unknown :
    ∀ es : List Expr, Expr.placedAll (fun _ => .unknown) es = Expr.unplacedAll es
  | [] => rfl
  | e :: rest => by simp [placedAll, unplacedAll, placed_unknown e, placedAll_unknown rest]

end

theorem Expr.map_placed_unknown (o : Option Expr) :
    o.map (Expr.placed fun _ => .unknown) = o.map Expr.unplaced := by
  cases o <;> simp [placed_unknown]

mutual

theorem Stmt.placed_unknown : ∀ s : Stmt, s.placed (fun _ => .unknown) = s.unplaced
  | .expression e _ => by simp [placed, unplaced, Expr.placed_unknown e]
  | .declaration _ o _ => by simp [placed, unplaced, Expr.map_placed_unknown o]
  | .block statements _ => by simp [placed, unplaced, placedAll_unknown statements]
  | .conditional e thenBranch elseBranch _ => by
    simp [placed, unplaced, Expr.placed_unknown e, placed_unknown thenBranch,
      placedOption_unknown elseBranch]
  | .loop e body _ => by simp [placed, unplaced, Expr.placed_unknown e, placed_unknown body]
  | .function _ _ body _ => by simp [placed, unplaced, placed_unknown body]
  | .result o _ => by simp [placed, unplaced, Expr.map_placed_unknown o]
  | .print e _ => by simp [placed, unplaced, Expr.placed_unknown e]
  | .jump _ _ => rfl
  | .stray _ _ => rfl

theorem Stmt.placedAll_unknown :
    ∀ ss : List Stmt, Stmt.placedAll (fun _ => .unknown) ss = Stmt.unplacedAll ss
  | [] => rfl
  | s :: rest => by simp [placedAll, unplacedAll, placed_unknown s, placedAll_unknown rest]

theorem Stmt.placedOption_unknown :
    ∀ o : Option Stmt, Stmt.placedOption (fun _ => .unknown) o = Stmt.unplacedOption o
  | none => rfl
  | some s => by simp [placedOption, unplacedOption, placed_unknown s]

end

end Scripting
