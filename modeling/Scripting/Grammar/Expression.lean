import Scripting.Grammar.Cursor

set_option autoImplicit false

/-! # The grammar of expressions

From the tightest to the loosest: literals, variables and parentheses (`primary`); calls (`call`);
negation (`unary`); the binary operators on four levels (`binary`); `and`; `or`; `assignment`. The
binary operators, `and` and `or` group to the left, assignment to the right. Every production is
given the parts that may be nested in it, `g`, and uses them for what stands in parentheses, behind
a sign of negation, among the arguments of a call and on the right side of an assignment. -/

namespace Scripting.Grammar

open Reading

/-! ## Operands -/

/-- The value of a keyword that is a literal. -/
def keywordValue? : String → Option Value
  | "true" => some (.bool true)
  | "false" => some (.bool false)
  | "nil" => some .nil
  | _ => none

/-- The value of `t`, if it is a literal. -/
def literalValue? (t : Token) : Option Value :=
  match t.kind with
  | .number | .string => some t.value
  | .keyword => keywordValue? t.lexeme
  | _ => none

/-- A literal, a variable, or an expression in parentheses. -/
def primary (g : Nested) : Reading Expr := do
  let t ← current
  if let some value := literalValue? t then
    let _ ← advance
    return .literal value t.position
  else if t.kind = .identifier then
    let _ ← advance
    return .identifier t.lexeme t.position
  else if t.is .punctuation "(" then
    let _ ← advance
    let inner ← g.expression
    let _ ← eatMark ")"
    return .grouping inner t.position
  else
    expected .expression

/-- A comma and one more `element` of a list. The element is read knowing those before it, `done`,
    the last one first. -/
def oneMore {α : Type} (element : List α → Reading α) (done : List α) : Reading (List α) := do
  let _ ← advance
  let a ← element done
  return a :: done

/-- Each `element` of a list, with commas between them, up to a closing parenthesis, which stays. -/
def elements {α : Type} (element : List α → Reading α) : Reading (List α) := do
  if ← sees .punctuation ")" then
    return []
  else
    let first ← element []
    let reversed ← whileSees .punctuation "," (oneMore element) [first]
    return reversed.reverse

/-- The arguments of a call behind its opening parenthesis, and the closing one. -/
def arguments (g : Nested) : Reading (List Expr) := do
  let values ← elements fun _ => g.expression
  let _ ← eatMark ")"
  return values

/-- A call of `callee`, which stands before an opening parenthesis. -/
def application (g : Nested) (callee : Expr) : Reading Expr := do
  let t ← advance
  let values ← arguments g
  return .call callee values t.position

/-- An operand with any number of argument lists behind it. -/
def call (g : Nested) : Reading Expr := do
  let callee ← primary g
  whileSees .punctuation "(" (application g) callee

/-- The operator that `t` stands for before an operand. -/
def negation? (t : Token) : Option Operator :=
  if t.is .operator "-" then some .neg
  else if t.is .operator "!" then some .not
  else none

/-- A call, with any number of signs of negation before it. -/
def unary (g : Nested) : Reading Expr := do
  let t ← current
  match negation? t with
  | some op =>
    let _ ← advance
    let operand ← g.operand
    return .unary op operand t.position
  | none => call g

/-! ## Operations -/

/-- The binary operator that `t` stands for, with its precedence, if it binds at least as tightly as
    `least`. -/
def operation? (least : Int) (t : Token) : Option (Operator × Nat) :=
  if t.kind = .operator then
    match Operator.ofSpelling? t.lexeme with
    | none => none
    | some op =>
      match op.precedence? with
      | none => none
      | some p => if least ≤ p then some (op, p) else none
  else none

/-- An operation on `left`, which stands before its operator, if that binds at least as tightly as
    `least`. The right operand is read by `operand`, which is told how tightly its operators must
    bind. -/
def operation (least : Int) (operand : Int → Reading Expr) (left : Expr) :
    Reading (Option Expr) := do
  match operation? least (← current) with
  | none => return none
  | some (op, p) =>
    let t ← advance
    -- operators of the same level are not for the right operand, so they group to the left
    let right ← operand (p + 1)
    return some (.binary op left right t.position)

/-- An operand with operations behind it that bind at least as tightly as `least`. The right
    operand of an operation takes only what binds more tightly than it; `levels` counts how often
    that is still possible. -/
def climb (operand : Reading Expr) : Nat → Int → Reading Expr
  | 0, _ => operand
  | levels + 1, least => do
    let first ← operand
    repeatFrom (operation least (climb operand levels)) first

/-- Operands joined by binary operators that bind at least as tightly as `least`. -/
def binary (g : Nested) (least : Int) : Reading Expr :=
  climb (unary g) Operator.levels least

/-- The keyword of `op` between `left`, which stands before it, and an `operand`. -/
def junction (op : Operator) (operand : Reading Expr) (left : Expr) : Reading Expr := do
  let t ← advance
  let right ← operand
  return .logical op left right t.position

/-- Each `operand` joined to the next by the keyword of `op`, grouped to the left. -/
def joined (op : Operator) (operand : Reading Expr) : Reading Expr := do
  let first ← operand
  whileSees .keyword op.spelling (junction op operand) first

/-- Operations joined by `and`. -/
def conjunction (g : Nested) : Reading Expr :=
  joined .and (binary g 1)

/-- Conjunctions joined by `or`. -/
def disjunction (g : Nested) : Reading Expr :=
  joined .or (conjunction g)

/-- A disjunction, or an assignment to a variable. What stands on the left side is judged only when
    the right side has been read. -/
def assignment (g : Nested) : Reading Expr := do
  let target ← disjunction g
  let t ← current
  if t.is .operator "=" then
    let _ ← advance
    let value ← g.expression
    match target with
    | .identifier name position => return .assignment name value position
    | _ => refuseAt .assignmentTarget t
  else
    return target

/-- An expression. -/
def expression (g : Nested) : Reading Expr :=
  assignment g

end Scripting.Grammar
