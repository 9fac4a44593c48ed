import Scripting.Program

set_option autoImplicit false

/-! # Programs up to layout

Two programs are the same (`Program.same`) if their trees differ in positions only. Literals are the
same if their values are equal by `Value.equal`, so that `true` and `1` may stand for each other. -/

namespace Scripting

mutual

/-- Whether two expressions differ in positions only. -/
def Expr.same : Expr → Expr → Bool
  | .literal v _, .literal w _ => v.equal w
  | .identifier m _, .identifier n _ => m = n
  | .unary op a _, .unary op' a' _ => op = op' && a.same a'
  | .binary op l r _, .binary op' l' r' _ => op = op' && l.same l' && r.same r'
  | .logical op l r _, .logical op' l' r' _ => op = op' && l.same l' && r.same r'
  | .call f as _, .call f' as' _ => f.same f' && Expr.sameAll as as'
  | .assignment m a _, .assignment n a' _ => m = n && a.same a'
  | .grouping a _, .grouping a' _ => a.same a'
  | .stray s, .stray t => s = t
  | _, _ => false

/-- Whether two lists of expressions differ in positions only. -/
def Expr.sameAll : List Expr → List Expr → Bool
  | [], [] => true
  | a :: as, b :: bs => a.same b && Expr.sameAll as bs
  | _, _ => false

end

/-- Whether two expressions that may be left out differ in positions only. -/
def Expr.sameOption : Option Expr → Option Expr → Bool
  | none, none => true
  | some a, some b => a.same b
  | _, _ => false

mutual

/-- Whether two statements differ in positions only. -/
def Stmt.same : Stmt → Stmt → Bool
  | .expression a _, .expression b _ => a.same b
  | .declaration m a _, .declaration n b _ => m = n && Expr.sameOption a b
  | .block as _, .block bs _ => Stmt.sameAll as bs
  | .conditional c t e _, .conditional c' t' e' _ => c.same c' && t.same t' && Stmt.sameOption e e'
  | .loop c b _, .loop c' b' _ => c.same c' && b.same b'
  | .function m ps b _, .function n qs b' _ => m = n && ps = qs && b.same b'
  | .result a _, .result b _ => Expr.sameOption a b
  | .print a _, .print b _ => a.same b
  | .jump j _, .jump k _ => j = k
  | .stray k s, .stray l t => k = l && s = t
  | _, _ => false

/-- Whether two lists of statements differ in positions only. -/
def Stmt.sameAll : List Stmt → List Stmt → Bool
  | [], [] => true
  | a :: as, b :: bs => a.same b && Stmt.sameAll as bs
  | _, _ => false

/-- Whether two statements that may be left out differ in positions only. -/
def Stmt.sameOption : Option Stmt → Option Stmt → Bool
  | none, none => true
  | some a, some b => a.same b
  | _, _ => false

end

/-- Whether two programs differ in positions only. -/
def Program.same (p q : Program) : Bool :=
  Stmt.sameAll p q

end Scripting
