import Scripting.Number.Written
import Scripting.Text.Quoted

set_option autoImplicit false

/-! # Values

What an expression evaluates to (`Value`), with its type, its truth and the text that printing it
writes. A function that a program declares is a value by its identity: the value holds the number
under which the function is kept and the name by which it is printed, and two functions are equal
only if they are one and the same. -/

namespace Scripting

/-- The functions that every program finds in its outermost scope. -/
inductive Builtin where
  | input
  deriving DecidableEq, Repr

/-- The name to which a builtin function is bound. -/
def Builtin.name : Builtin → String
  | .input => "input"

/-- How many arguments a builtin function takes. -/
def Builtin.arity : Builtin → Nat
  | .input => 0

/-- A value of the language. -/
inductive Value where
  | nil
  | bool (b : Bool)
  | num (x : Float)
  | str (s : String)
  | function (id : Nat) (name : String)
  | builtin (b : Builtin)
  deriving DecidableEq, Inhabited

/-- The types that values have. -/
inductive ValueType where
  | nil | boolean | number | string | function
  deriving DecidableEq, Repr

/-- The name of a type in messages. -/
def ValueType.name : ValueType → String
  | .nil => "nil"
  | .boolean => "boolean"
  | .number => "number"
  | .string => "string"
  | .function => "function"

namespace Value

/-- The type of a value. -/
def type : Value → ValueType
  | .nil => .nil
  | .bool _ => .boolean
  | .num _ => .number
  | .str _ => .string
  | .function _ _ => .function
  | .builtin _ => .function

/-- Booleans are themselves, nil is false, and every other value is true. -/
def truthy : Value → Bool
  | .nil => false
  | .bool b => b
  | _ => true

/-- Whether two values are equal. A boolean equals the number zero or one that it would be counted
    as; other values of different types differ. The language itself compares values of one type
    only, or a value with `nil`. -/
def equal : Value → Value → Bool
  | .nil, .nil => true
  | .bool a, .bool b => a = b
  | .num x, .num y => x == y
  | .bool b, .num x => x == (if b then 1.0 else 0.0)
  | .num x, .bool b => x == (if b then 1.0 else 0.0)
  | .str s, .str t => s = t
  | .function i _, .function j _ => i = j
  | .builtin a, .builtin b => a = b
  | _, _ => false

/-- The text that printing a value writes, if it can be written. -/
def printed? : Value → Option String
  | .nil => some "nil"
  | .bool true => some "true"
  | .bool false => some "false"
  | .num x => Number.printed? x
  | .str s => some s
  | .function _ name => some ("<fn " ++ name ++ ">")
  | .builtin b => some ("<builtin " ++ b.name ++ ">")

/-- The text of `v`, which is empty for a value that cannot be written (`printed?`). -/
def printed (v : Value) : String :=
  v.printed?.getD ""

/-- A value as it stands in the report of a tree. -/
def written : Value → String
  | .nil => "None"
  | .bool true => "True"
  | .bool false => "False"
  | .num x => Number.written x
  | .str s => Text.quoted s
  | .function _ name => "<fn " ++ name ++ ">"
  | .builtin b => "<builtin " ++ b.name ++ ">"

end Value

end Scripting
