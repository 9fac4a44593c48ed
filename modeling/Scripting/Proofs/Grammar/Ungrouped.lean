import Scripting.Program

set_option autoImplicit false

/-! # Programs without groupings

Parentheses around an expression are kept in the tree of a program as an `Expr.grouping`. An
`ungrouped` tree has what they group in their places, and every other node of it stays as it was, in
its place in the text. Two trees are equal up to groupings if they are equal without them. Such
trees are gone through side by side: behind the groupings around them they have the same node in
front, with parts that are equal up to groupings again, so the one `Matches` the other. -/

namespace Scripting

/-! ## Expressions -/

mutual

/-- An expression without its groupings. -/
def Expr.ungrouped : Expr → Expr
  | .literal value p => .literal value p
  | .identifier name p => .identifier name p
  | .unary op operand p => .unary op operand.ungrouped p
  | .binary op left right p => .binary op left.ungrouped right.ungrouped p
  | .logical op left right p => .logical op left.ungrouped right.ungrouped p
  | .call callee arguments p => .call callee.ungrouped (Expr.ungroupedAll arguments) p
  | .assignment name value p => .assignment name value.ungrouped p
  | .grouping inner _ => inner.ungrouped
  | .stray written => .stray written

/-- The expressions of a list without their groupings. -/
def Expr.ungroupedAll : List Expr → List Expr
  | [] => []
  | e :: rest => e.ungrouped :: Expr.ungroupedAll rest

end

theorem Expr.ungroupedAll_eq_map (es : List Expr) :
    Expr.ungroupedAll es = es.map Expr.ungrouped := by
  induction es with
  | nil => rfl
  | cons e rest ih => simp [ungroupedAll, ih]

/-- What stands behind the groupings around an expression. -/
def Expr.core : Expr → Expr
  | .grouping inner _ => inner.core
  | e => e

/-- Whether two expressions are the same node with parts that are equal up to groupings. A
    `grouping` counts as what it groups. -/
def Expr.Matches : Expr → Expr → Prop
  | .grouping inner _, e' => inner.ungrouped = e'.ungrouped
  | .literal v p, .literal v' p' => v = v' ∧ p = p'
  | .identifier name p, .identifier name' p' => name = name' ∧ p = p'
  | .unary op e p, .unary op' e' p' => op = op' ∧ e.ungrouped = e'.ungrouped ∧ p = p'
  | .binary op l r p, .binary op' l' r' p' =>
    op = op' ∧ l.ungrouped = l'.ungrouped ∧ r.ungrouped = r'.ungrouped ∧ p = p'
  | .logical op l r p, .logical op' l' r' p' =>
    op = op' ∧ l.ungrouped = l'.ungrouped ∧ r.ungrouped = r'.ungrouped ∧ p = p'
  | .call e es p, .call e' es' p' =>
    e.ungrouped = e'.ungrouped ∧ es.map Expr.ungrouped = es'.map Expr.ungrouped ∧ p = p'
  | .assignment name e p, .assignment name' e' p' =>
    name = name' ∧ e.ungrouped = e'.ungrouped ∧ p = p'
  | .stray written, .stray written' => written = written'
  | _, _ => False

/-- Expressions that are equal when `ungrouped` are the same node behind the groupings around the
    second, at its `core`. -/
theorem Expr.matches_core {e : Expr} : ∀ {e' : Expr}, e.ungrouped = e'.ungrouped →
    e.Matches e'.core
  | .grouping inner p, h =>
    have hinner : e.ungrouped = inner.ungrouped := by rw [h, ungrouped]
    (matches_core hinner : e.Matches inner.core)
  | .literal _ _, h | .identifier _ _, h | .unary _ _ _, h | .binary _ _ _ _, h
  | .logical _ _ _ _, h | .call _ _ _, h | .assignment _ _ _, h | .stray _, h => by
    cases e <;> simp_all [ungrouped, ungroupedAll_eq_map, core, Matches]

mutual

@[simp] theorem Expr.ungrouped_ungrouped : ∀ e : Expr, e.ungrouped.ungrouped = e.ungrouped
  | .literal _ _ => rfl
  | .identifier _ _ => rfl
  | .unary _ operand _ => by simp [ungrouped, ungrouped_ungrouped operand]
  | .binary _ left right _ => by
    simp [ungrouped, ungrouped_ungrouped left, ungrouped_ungrouped right]
  | .logical _ left right _ => by
    simp [ungrouped, ungrouped_ungrouped left, ungrouped_ungrouped right]
  | .call callee arguments _ => by
    simp [ungrouped, ungrouped_ungrouped callee, ungroupedAll_ungroupedAll arguments]
  | .assignment _ value _ => by simp [ungrouped, ungrouped_ungrouped value]
  | .grouping inner _ => by simp [ungrouped, ungrouped_ungrouped inner]
  | .stray _ => rfl

theorem Expr.ungroupedAll_ungroupedAll :
    ∀ es : List Expr, Expr.ungroupedAll (Expr.ungroupedAll es) = Expr.ungroupedAll es
  | [] => rfl
  | e :: rest => by
    simp [ungroupedAll, ungrouped_ungrouped e, ungroupedAll_ungroupedAll rest]

end

/-! ## Statements and programs -/

mutual

/-- A statement without its groupings. -/
def Stmt.ungrouped : Stmt → Stmt
  | .expression e p => .expression e.ungrouped p
  | .declaration name initializer p => .declaration name (initializer.map Expr.ungrouped) p
  | .block statements p => .block (Stmt.ungroupedAll statements) p
  | .conditional condition thenBranch elseBranch p =>
    .conditional condition.ungrouped thenBranch.ungrouped (Stmt.ungroupedOption elseBranch) p
  | .loop condition body p => .loop condition.ungrouped body.ungrouped p
  | .function name parameters body p => .function name parameters body.ungrouped p
  | .result value p => .result (value.map Expr.ungrouped) p
  | .print e p => .print e.ungrouped p
  | .jump which p => .jump which p
  | .stray kind written => .stray kind written

/-- The statements of a list without their groupings. -/
def Stmt.ungroupedAll : List Stmt → List Stmt
  | [] => []
  | s :: rest => s.ungrouped :: Stmt.ungroupedAll rest

/-- A statement that may be left out, without its groupings. -/
def Stmt.ungroupedOption : Option Stmt → Option Stmt
  | none => none
  | some s => some s.ungrouped

end

theorem Stmt.ungroupedAll_eq_map (ss : List Stmt) :
    Stmt.ungroupedAll ss = ss.map Stmt.ungrouped := by
  induction ss with
  | nil => rfl
  | cons s rest ih => simp [ungroupedAll, ih]

theorem Stmt.ungroupedOption_eq_map (o : Option Stmt) :
    Stmt.ungroupedOption o = o.map Stmt.ungrouped := by
  cases o <;> rfl

/-- Whether two statements are the same node with parts that are equal up to groupings. -/
def Stmt.Matches : Stmt → Stmt → Prop
  | .expression e p, .expression e' p' => e.ungrouped = e'.ungrouped ∧ p = p'
  | .declaration name o p, .declaration name' o' p' =>
    name = name' ∧ o.map Expr.ungrouped = o'.map Expr.ungrouped ∧ p = p'
  | .block ss p, .block ss' p' => ss.map Stmt.ungrouped = ss'.map Stmt.ungrouped ∧ p = p'
  | .conditional e s o p, .conditional e' s' o' p' =>
    e.ungrouped = e'.ungrouped ∧ s.ungrouped = s'.ungrouped ∧
      o.map Stmt.ungrouped = o'.map Stmt.ungrouped ∧ p = p'
  | .loop e s p, .loop e' s' p' =>
    e.ungrouped = e'.ungrouped ∧ s.ungrouped = s'.ungrouped ∧ p = p'
  | .function name names s p, .function name' names' s' p' =>
    name = name' ∧ names = names' ∧ s.ungrouped = s'.ungrouped ∧ p = p'
  | .result o p, .result o' p' => o.map Expr.ungrouped = o'.map Expr.ungrouped ∧ p = p'
  | .print e p, .print e' p' => e.ungrouped = e'.ungrouped ∧ p = p'
  | .jump which p, .jump which' p' => which = which' ∧ p = p'
  | .stray kind written, .stray kind' written' => kind = kind' ∧ written = written'
  | _, _ => False

/-- Statements that are equal when `ungrouped` are the same node. -/
theorem Stmt.matches_of_ungrouped_eq {s s' : Stmt} (h : s.ungrouped = s'.ungrouped) :
    s.Matches s' := by
  cases s <;> cases s' <;>
    simp_all [ungrouped, ungroupedAll_eq_map, ungroupedOption_eq_map, Matches]

mutual

@[simp] theorem Stmt.ungrouped_ungrouped : ∀ s : Stmt, s.ungrouped.ungrouped = s.ungrouped
  | .expression _ _ => by simp [ungrouped]
  | .declaration _ initializer _ => by cases initializer <;> simp [ungrouped]
  | .block statements _ => by simp [ungrouped, ungroupedAll_ungroupedAll statements]
  | .conditional _ thenBranch elseBranch _ => by
    simp [ungrouped, ungrouped_ungrouped thenBranch, ungroupedOption_ungroupedOption elseBranch]
  | .loop _ body _ => by simp [ungrouped, ungrouped_ungrouped body]
  | .function _ _ body _ => by simp [ungrouped, ungrouped_ungrouped body]
  | .result value _ => by cases value <;> simp [ungrouped]
  | .print _ _ => by simp [ungrouped]
  | .jump _ _ => rfl
  | .stray _ _ => rfl

theorem Stmt.ungroupedAll_ungroupedAll :
    ∀ ss : List Stmt, Stmt.ungroupedAll (Stmt.ungroupedAll ss) = Stmt.ungroupedAll ss
  | [] => rfl
  | s :: rest => by
    simp [ungroupedAll, ungrouped_ungrouped s, ungroupedAll_ungroupedAll rest]

theorem Stmt.ungroupedOption_ungroupedOption :
    ∀ o : Option Stmt, Stmt.ungroupedOption (Stmt.ungroupedOption o) = Stmt.ungroupedOption o
  | none => rfl
  | some s => by simp [ungroupedOption, ungrouped_ungrouped s]

end

/-- A program without its groupings. -/
def Program.ungrouped (p : Program) : Program :=
  p.map Stmt.ungrouped

@[simp] theorem Program.ungrouped_ungrouped (p : Program) :
    p.ungrouped.ungrouped = p.ungrouped := by
  simp [ungrouped]

end Scripting
