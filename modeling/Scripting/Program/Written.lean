import Scripting.Program

set_option autoImplicit false

/-! # Programs in writing

The report of a tree (`Expr.written`, `Stmt.written`): each node by its kind and its fields in
order, without positions. Lists are written in parentheses, with a comma behind a single element so
that it is not taken for a mere grouping, and a field that is left out as `None`. -/

namespace Scripting

/-- The texts `parts` as the elements of a list. -/
def writtenList (parts : List String) : String :=
  match parts with
  | [part] => "(" ++ part ++ ",)"
  | _ => "(" ++ String.intercalate ", " parts ++ ")"

/-- A node by its `kind` and its `fields`. -/
def writtenNode (kind : String) (fields : List (String × String)) : String :=
  kind ++ "(" ++ String.intercalate ", " (fields.map fun f => f.1 ++ "=" ++ f.2) ++ ")"

/-- An operator in the report of a tree. -/
def Operator.written (op : Operator) : String :=
  "<Op." ++ op.label ++ ": " ++ Text.quoted op.spelling ++ ">"

mutual

/-- An expression in the report of a tree. -/
def Expr.written : Expr → String
  | .literal value _ => writtenNode "Literal" [("value", value.written)]
  | .identifier name _ => writtenNode "Identifier" [("name", Text.quoted name)]
  | .unary op operand _ =>
    writtenNode "Unary" [("op", op.written), ("operand", operand.written)]
  | .binary op left right _ =>
    writtenNode "Binary" [("op", op.written), ("left", left.written), ("right", right.written)]
  | .logical op left right _ =>
    writtenNode "Logical" [("op", op.written), ("left", left.written), ("right", right.written)]
  | .call callee arguments _ =>
    writtenNode "Call"
      [("callee", callee.written), ("arguments", writtenList (Expr.writtenAll arguments))]
  | .assignment name value _ =>
    writtenNode "Assignment" [("name", Text.quoted name), ("value", value.written)]
  | .grouping inner _ => writtenNode "Grouping" [("inner", inner.written)]
  | .stray text => text

/-- The elements of a list of expressions in the report of a tree. -/
def Expr.writtenAll : List Expr → List String
  | [] => []
  | e :: rest => e.written :: Expr.writtenAll rest

end

/-- An expression that may be left out. -/
def Expr.writtenOption : Option Expr → String
  | none => "None"
  | some e => e.written

/-- A jump in the report of a tree. -/
def Jump.written : Jump → String
  | .leave => writtenNode "Break" []
  | .again => writtenNode "Continue" []

mutual

/-- A statement in the report of a tree. -/
def Stmt.written : Stmt → String
  | .expression e _ => writtenNode "ExpressionStatement" [("expression", e.written)]
  | .declaration name initializer _ =>
    writtenNode "VariableDeclaration"
      [("name", Text.quoted name), ("initializer", Expr.writtenOption initializer)]
  | .block statements _ =>
    writtenNode "Block" [("statements", writtenList (Stmt.writtenAll statements))]
  | .conditional condition thenBranch elseBranch _ =>
    writtenNode "If"
      [("condition", condition.written), ("then_branch", thenBranch.written),
       ("else_branch", Stmt.writtenOption elseBranch)]
  | .loop condition body _ =>
    writtenNode "While" [("condition", condition.written), ("body", body.written)]
  | .function name parameters body _ =>
    writtenNode "FunctionDeclaration"
      [("name", Text.quoted name), ("params", writtenList (parameters.map Text.quoted)),
       ("body", body.written)]
  | .result value _ => writtenNode "Return" [("value", Expr.writtenOption value)]
  | .print e _ => writtenNode "Print" [("expression", e.written)]
  | .jump j _ => j.written
  | .stray _ text => text

/-- The elements of a list of statements in the report of a tree. -/
def Stmt.writtenAll : List Stmt → List String
  | [] => []
  | s :: rest => s.written :: Stmt.writtenAll rest

/-- A statement that may be left out. -/
def Stmt.writtenOption : Option Stmt → String
  | none => "None"
  | some s => s.written

end

end Scripting
