import Scripting.Program

set_option autoImplicit false

/-! # Well-formed programs

Which trees the grammar allows, as `Program.WellFormed`. Every expression has an `Expr.level` on the
ladder of precedence, and a node takes operands of certain levels only: the left operand of an
operation may be on the level of the operation, the right one must be above it, so operations of one
level group to the left. Bodies are blocks, parameters have distinct names, jumps stand in loops and
returns in functions; where a statement stands is its `Setting`. -/

namespace Scripting

/-! ## The ladder of precedence -/

/-- The level of the node that an operator makes of its operands. Between `and` and unary `-` the
    levels are those of `Operator.precedence?`, moved up by two. -/
def Operator.level : Operator → Nat
  | .or => 1
  | .and => 2
  | .eq | .ne => 3
  | .lt | .le | .gt | .ge => 4
  | .add | .sub => 5
  | .mul | .div => 6
  | .neg | .not => 7

theorem Operator.level_of_precedence? {op : Operator} {p : Nat} (h : op.precedence? = some p) :
    op.level = p + 2 := by
  cases op <;> simp only [precedence?, Option.some.injEq, reduceCtorEq] at h <;> subst h <;> rfl

/-- The level of an expression: an `assignment` is on the lowest, then come the operators, then
    `call`, and on the highest is what needs no neighbours, a `literal`, an `identifier` or a
    `grouping`. -/
def Expr.level : Expr → Nat
  | .assignment _ _ _ => 0
  | .logical op _ _ _ => op.level
  | .binary op _ _ _ => op.level
  | .unary _ _ _ => 7
  | .call _ _ _ => 8
  | .literal _ _ => 9
  | .identifier _ _ => 9
  | .grouping _ _ => 9
  | .stray _ => 9

mutual

/-- Whether an expression respects the ladder of `Expr.level`, and its nodes hold operators that
    they are made for. -/
def Expr.WellFormed : Expr → Prop
  | .literal _ _ => True
  | .identifier _ _ => True
  | .unary op operand _ => (op = .neg ∨ op = .not) ∧ 7 ≤ operand.level ∧ operand.WellFormed
  | .binary op left right _ =>
    op.precedence?.isSome ∧ op.level ≤ left.level ∧ op.level < right.level ∧
      left.WellFormed ∧ right.WellFormed
  | .logical op left right _ =>
    (op = .and ∨ op = .or) ∧ op.level ≤ left.level ∧ op.level < right.level ∧
      left.WellFormed ∧ right.WellFormed
  | .call callee arguments _ =>
    8 ≤ callee.level ∧ callee.WellFormed ∧ Expr.AllWellFormed arguments
  | .assignment _ value _ => value.WellFormed
  | .grouping inner _ => inner.WellFormed
  | .stray _ => False

/-- Whether all expressions of a list are `Expr.WellFormed`. -/
def Expr.AllWellFormed : List Expr → Prop
  | [] => True
  | e :: rest => e.WellFormed ∧ Expr.AllWellFormed rest

end

theorem Expr.allWellFormed_iff {es : List Expr} :
    Expr.AllWellFormed es ↔ ∀ e ∈ es, e.WellFormed := by
  induction es with
  | nil => simp [AllWellFormed]
  | cons e rest ih => simp [AllWellFormed, ih]

/-! ## Statements -/

/-- What stands around a statement: whether it is in a loop of its function, `inLoop`, and in a
    function, `inFunction`. -/
structure Setting where
  inLoop : Bool
  inFunction : Bool
  deriving DecidableEq, Repr

namespace Setting

/-- Around the statements of a program. -/
def outermost : Setting := ⟨false, false⟩

/-- Around the body of a loop that stands in the setting `w`. -/
def loopBody (w : Setting) : Setting := { w with inLoop := true }

/-- Around the body of a function. A loop around the function is none around its body. -/
def functionBody : Setting := ⟨false, true⟩

end Setting

/-- Whether a statement is a `block`. -/
def Stmt.IsBlock : Stmt → Prop
  | .block _ _ => True
  | _ => False

/-- Whether a statement may stand behind `else`: a `block` or a further conditional. -/
def Stmt.IsAlternative : Stmt → Prop
  | .block _ _ => True
  | .conditional _ _ _ _ => True
  | _ => False

mutual

/-- Whether a statement is one of the grammar in the setting `w`. -/
def Stmt.WellFormed (w : Setting) : Stmt → Prop
  | .expression e _ => e.WellFormed
  | .print e _ => e.WellFormed
  | .declaration _ initializer _ => ∀ e ∈ initializer, e.WellFormed
  | .block statements _ => Stmt.AllWellFormed w statements
  | .conditional condition thenBranch elseBranch _ =>
    condition.WellFormed ∧ thenBranch.IsBlock ∧ thenBranch.WellFormed w ∧
      Stmt.ElseWellFormed w elseBranch
  | .loop condition body _ => condition.WellFormed ∧ body.IsBlock ∧ body.WellFormed w.loopBody
  | .function _ parameters body _ =>
    parameters.Nodup ∧ body.IsBlock ∧ body.WellFormed .functionBody
  | .result value _ => w.inFunction = true ∧ ∀ e ∈ value, e.WellFormed
  | .jump _ _ => w.inLoop = true
  | .stray _ _ => False

/-- Whether all statements of a list are `Stmt.WellFormed` in the setting `w`. -/
def Stmt.AllWellFormed (w : Setting) : List Stmt → Prop
  | [] => True
  | s :: rest => s.WellFormed w ∧ Stmt.AllWellFormed w rest

/-- Whether what stands behind `else`, if anything does, is `Stmt.WellFormed` in the setting `w`. -/
def Stmt.ElseWellFormed (w : Setting) : Option Stmt → Prop
  | none => True
  | some s => s.IsAlternative ∧ s.WellFormed w

end

theorem Stmt.allWellFormed_iff {w : Setting} {ss : List Stmt} :
    Stmt.AllWellFormed w ss ↔ ∀ s ∈ ss, s.WellFormed w := by
  induction ss with
  | nil => simp [AllWellFormed]
  | cons s rest ih => simp [AllWellFormed, ih]

/-- Whether a program is one of the grammar: its statements are so in the `outermost` setting. -/
def Program.WellFormed (p : Program) : Prop :=
  ∀ s ∈ p, s.WellFormed .outermost

end Scripting
