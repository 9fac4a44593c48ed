import Scripting.Operator
import Scripting.Value

set_option autoImplicit false

/-! # Misplaced parts

What no program that was read leads to: nodes and operators in places for which they are not made,
and operations outside the range in which they have a result. Trees put together by hand can hold
such parts. Running one of them is no fault of the program but stops the run at once, with the
reason in `Misplaced`. -/

namespace Scripting

/-- A part in a place for which it is not made. -/
inductive Misplaced where
  | expression (written : String)
  | statement (kind : String)
  | operator (op : Operator)
  /-- The body of a function that is called and is no block. -/
  | body (kind : String)
  /-- A zero in the place of a divisor. -/
  | divisor
  /-- Arguments for a builtin function that takes another number of them. -/
  | arguments (b : Builtin) (got : Nat)
  /-- A value that has no text. -/
  | text (type : ValueType)
  deriving DecidableEq, Repr

/-- The misplaced part in words. -/
def Misplaced.message : Misplaced → String
  | .expression written => s!"Invalid expression node: {written}"
  | .statement kind => s!"Unknown statement type: {kind}"
  | .operator op => s!"Unknown binary operator '{op.spelling}'"
  | .body kind => s!"'{kind}' object has no attribute 'statements'"
  | .divisor => "float division by zero"
  | .arguments b got => s!"{b.name} takes {b.arity} argument(s) but {got} were given"
  | .text type => s!"cannot convert a {type.name} to text"

end Scripting
