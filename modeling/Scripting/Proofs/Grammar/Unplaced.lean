import Scripting.Program

set_option autoImplicit false

/-! # Programs without positions

A tree with every position replaced by `Position.unknown`, the one that a node has if none is given
for it. Two trees are equal up to layout if they are equal when `unplaced`. Unlike `Expr.same`,
which compares values as a program does, this tells every two literals apart. -/

namespace Scripting

mutual

/-- An expression without its positions. -/
def Expr.unplaced : Expr → Expr
  | .literal value _ => .literal value .unknown
  | .identifier name _ => .identifier name .unknown
  | .unary op operand _ => .unary op operand.unplaced .unknown
  | .binary op left right _ => .binary op left.unplaced right.unplaced .unknown
  | .logical op left right _ => .logical op left.unplaced right.unplaced .unknown
  | .call callee arguments _ => .call callee.unplaced (Expr.unplacedAll arguments) .unknown
  | .assignment name value _ => .assignment name value.unplaced .unknown
  | .grouping inner _ => .grouping inner.unplaced .unknown
  | .stray written => .stray written

/-- The expressions of a list without their positions. -/
def Expr.unplacedAll : List Expr → List Expr
  | [] => []
  | e :: rest => e.unplaced :: Expr.unplacedAll rest

end

theorem Expr.unplacedAll_eq_map (es : List Expr) : Expr.unplacedAll es = es.map Expr.unplaced := by
  induction es with
  | nil => rfl
  | cons e rest ih => simp [unplacedAll, ih]

/-- An `identifier` is told from every other expression without positions. -/
theorem Expr.exists_eq_identifier {e : Expr} {name : String}
    (h : e.unplaced = .identifier name .unknown) : ∃ position, e = .identifier name position := by
  cases e <;> simp_all [unplaced]

mutual

/-- A statement without its positions. -/
def Stmt.unplaced : Stmt → Stmt
  | .expression e _ => .expression e.unplaced .unknown
  | .declaration name initializer _ =>
    .declaration name (initializer.map Expr.unplaced) .unknown
  | .block statements _ => .block (Stmt.unplacedAll statements) .unknown
  | .conditional condition thenBranch elseBranch _ =>
    .conditional condition.unplaced thenBranch.unplaced (Stmt.unplacedOption elseBranch) .unknown
  | .loop condition body _ => .loop condition.unplaced body.unplaced .unknown
  | .function name parameters body _ => .function name parameters body.unplaced .unknown
  | .result value _ => .result (value.map Expr.unplaced) .unknown
  | .print e _ => .print e.unplaced .unknown
  | .jump which _ => .jump which .unknown
  | .stray kind written => .stray kind written

/-- The statements of a list without their positions. -/
def Stmt.unplacedAll : List Stmt → List Stmt
  | [] => []
  | s :: rest => s.unplaced :: Stmt.unplacedAll rest

/-- A statement that may be left out, without its positions. -/
def Stmt.unplacedOption : Option Stmt → Option Stmt
  | none => none
  | some s => some s.unplaced

end

theorem Stmt.unplacedAll_eq_map (ss : List Stmt) : Stmt.unplacedAll ss = ss.map Stmt.unplaced := by
  induction ss with
  | nil => rfl
  | cons s rest ih => simp [unplacedAll, ih]

/-- A program without its positions. -/
def Program.unplaced (p : Program) : Program :=
  p.map Stmt.unplaced

end Scripting
