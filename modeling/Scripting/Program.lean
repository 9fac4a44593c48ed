import Scripting.Fault

set_option autoImplicit false

/-! # Programs

The tree of a program (`Expr`, `Stmt`). Every node carries the position at which messages about it
point: a call that of its opening parenthesis, an operation that of its operator, an assignment that
of its variable, and the other nodes that of their first token. Trees are also put together by hand.
Such a tree may have a node in a place for which it is not made, and that node is then kept as
`stray`, by its written form only: it has no meaning, and evaluating it stops the program. -/

namespace Scripting

/-- An expression. -/
inductive Expr where
  | literal (value : Value) (position : Position)
  | identifier (name : String) (position : Position)
  | unary (op : Operator) (operand : Expr) (position : Position)
  | binary (op : Operator) (left right : Expr) (position : Position)
  | logical (op : Operator) (left right : Expr) (position : Position)
  | call (callee : Expr) (arguments : List Expr) (position : Position)
  | assignment (name : String) (value : Expr) (position : Position)
  | grouping (inner : Expr) (position : Position)
  /-- A node that is no expression, in the place of one. -/
  | stray (written : String)
  deriving Inhabited

/-- A statement. -/
inductive Stmt where
  | expression (e : Expr) (position : Position)
  | declaration (name : String) (initializer : Option Expr) (position : Position)
  | block (statements : List Stmt) (position : Position)
  | conditional (condition : Expr) (thenBranch : Stmt) (elseBranch : Option Stmt)
      (position : Position)
  | loop (condition : Expr) (body : Stmt) (position : Position)
  /-- A declaration of a function. In a program that was read, the body is a block. -/
  | function (name : String) (parameters : List String) (body : Stmt) (position : Position)
  | result (value : Option Expr) (position : Position)
  | print (e : Expr) (position : Position)
  | jump (which : Jump) (position : Position)
  /-- A node that is no statement, in the place of one. -/
  | stray (kind written : String)
  deriving Inhabited

namespace Stmt

/-- The name of the kind of a statement. -/
def kind : Stmt → String
  | .expression _ _ => "ExpressionStatement"
  | .declaration _ _ _ => "VariableDeclaration"
  | .block _ _ => "Block"
  | .conditional _ _ _ _ => "If"
  | .loop _ _ _ => "While"
  | .function _ _ _ _ => "FunctionDeclaration"
  | .result _ _ => "Return"
  | .print _ _ => "Print"
  | .jump .leave _ => "Break"
  | .jump .again _ => "Continue"
  | .stray kind _ => kind

end Stmt

/-- A program: statements that run one after the other. -/
abbrev Program := List Stmt

end Scripting
