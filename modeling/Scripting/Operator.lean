set_option autoImplicit false

/-! # Operators

The operators of expressions, their `spelling` in a program, and how tightly the binary ones bind
(`precedence?`). -/

namespace Scripting

/-- An operator of the language. -/
inductive Operator where
  | add | sub | mul | div
  | eq | ne | gt | lt | ge | le
  | neg | not
  | and | or
  deriving DecidableEq, Repr

namespace Operator

/-- All operators. -/
def all : List Operator :=
  [add, sub, mul, div, eq, ne, gt, lt, ge, le, neg, not, and, or]

/-- The text that stands for an operator in a program. `neg` is spelled by a word of its own, since
    the text of its token is that of `sub`. -/
def spelling : Operator → String
  | add => "+"
  | sub => "-"
  | mul => "*"
  | div => "/"
  | eq => "=="
  | ne => "!="
  | gt => ">"
  | lt => "<"
  | ge => ">="
  | le => "<="
  | neg => "neg"
  | not => "!"
  | and => "and"
  | or => "or"

/-- The name of an operator in the report of a tree. -/
def label : Operator → String
  | add => "ADD"
  | sub => "SUB"
  | mul => "MUL"
  | div => "DIV"
  | eq => "EQ"
  | ne => "NE"
  | gt => "GT"
  | lt => "LT"
  | ge => "GE"
  | le => "LE"
  | neg => "NEG"
  | not => "NOT"
  | and => "AND"
  | or => "OR"

/-- The operator whose `spelling` is `s`, if there is one. -/
def ofSpelling? (s : String) : Option Operator :=
  all.find? fun op => op.spelling = s

/-- How tightly an operator binds that stands between two operands and is computed from both; the
    others have no such precedence. -/
def precedence? : Operator → Option Nat
  | eq | ne => some 1
  | lt | le | gt | ge => some 2
  | add | sub => some 3
  | mul | div => some 4
  | neg | not | and | or => none

/-- The number of levels of `precedence?`. -/
def levels : Nat := 4

theorem ofSpelling?_spelling (op : Operator) : ofSpelling? op.spelling = some op := by
  cases op <;> decide

/-- Spellings are distinct, so `ofSpelling?` gives back the operator of which `s` is the `spelling`,
    and no other. -/
theorem ofSpelling?_eq_some_iff {s : String} {op : Operator} :
    ofSpelling? s = some op ↔ op.spelling = s := by
  constructor
  · intro h
    simpa using List.find?_some h
  · rintro rfl
    exact ofSpelling?_spelling op

theorem precedence?_le {op : Operator} {p : Nat} (h : op.precedence? = some p) :
    1 ≤ p ∧ p ≤ levels := by
  cases op <;> simp [precedence?] at h <;> subst h <;> decide

end Operator

end Scripting
