import Scripting.Fault
import Scripting.Misplaced

set_option autoImplicit false

/-! # Operations on values

What an operator makes of the values of its operands. Arithmetic takes numbers, addition also joins
two strings, an `order` compares two numbers or two strings, and an `equality` compares two values
of one type, or a value with `nil`. An operation that has no value is hindered either by a fault of
the program or by a part in a place for which it is not made (`Hindrance`). -/

namespace Scripting

/-- Why an operation has no value. -/
inductive Hindrance where
  | fault (cause : Cause)
  | misplaced (m : Misplaced)
  deriving DecidableEq

namespace Operation

/-! ## Binary operators -/

/-- The refusal of operands that are neither two numbers nor, where that is allowed, two
    strings. -/
def mismatched {α : Type} (op : Operator) (left right : Value) : Except Hindrance α :=
  .error (.fault (.typeMismatch (.operands op left.type right.type)))

/-- The operation `f` on two numbers; other operands are `mismatched`. -/
def onNumbers (op : Operator) (f : Float → Float → Except Hindrance Value) (left right : Value) :
    Except Hindrance Value :=
  match left, right with
  | .num x, .num y => f x y
  | _, _ => mismatched op left right

/-- The operation `f` on two numbers, or `g` on two strings. -/
def onNumbersOrStrings (op : Operator) (f : Float → Float → Value) (g : String → String → Value)
    (left right : Value) : Except Hindrance Value :=
  match left, right with
  | .num x, .num y => .ok (f x y)
  | .str s, .str t => .ok (g s t)
  | _, _ => mismatched op left right

/-- Whether the two values are equal, for values that can be compared by `op`. -/
def equality (op : Operator) (left right : Value) : Except Hindrance Bool :=
  if left ≠ .nil ∧ right ≠ .nil ∧ left.type ≠ right.type then
    .error (.fault (.typeMismatch (.comparison op left.type right.type)))
  else .ok (left.equal right)

/-- Divide two numbers. There is no dividing by a zero of either sign. -/
def divide (x y : Float) : Except Hindrance Float :=
  if y == 0.0 then .error (.misplaced .divisor) else .ok (x / y)

/-- The quotient of two numbers of a program, in which a zero of either sign is a fault. -/
def quotient (x y : Float) : Except Hindrance Value :=
  if y == 0.0 then .error (.fault .divisionByZero) else (divide x y).map .num

/-- Two numbers in the order `f`, or two strings in the order `g`. -/
def order (op : Operator) (f : Float → Float → Bool) (g : String → String → Bool)
    (left right : Value) : Except Hindrance Value :=
  onNumbersOrStrings op (fun x y => .bool (f x y)) (fun s t => .bool (g s t)) left right

/-- The value of the binary operation `op`. The operators that are not binary have none. -/
def binary (op : Operator) (left right : Value) : Except Hindrance Value :=
  match op with
  | .eq => (equality op left right).map .bool
  | .ne => (equality op left right).map fun b => .bool !b
  | .add => onNumbersOrStrings op (fun x y => .num (x + y)) (fun s t => .str (s ++ t)) left right
  | .sub => onNumbers op (fun x y => .ok (.num (x - y))) left right
  | .mul => onNumbers op (fun x y => .ok (.num (x * y))) left right
  | .div => onNumbers op quotient left right
  -- what is not a number is in no order with anything, so `≤` on numbers is no denial of `<`
  | .lt => order op (fun x y => x < y) (fun s t => s < t) left right
  | .gt => order op (fun x y => y < x) (fun s t => t < s) left right
  | .le => order op (fun x y => x ≤ y) (fun s t => !(t < s)) left right
  | .ge => order op (fun x y => y ≤ x) (fun s t => !(s < t)) left right
  | .neg | .not | .and | .or => .error (.misplaced (.operator op))

/-! ## Other operators -/

/-- The value of the sign `op` before an operand: every operator but `not` negates a number. -/
def negate (op : Operator) (operand : Value) : Except Hindrance Value :=
  if op = .not then .ok (.bool !operand.truthy)
  else match operand with
    | .num x => .ok (.num (-x))
    | other => .error (.fault (.typeMismatch (.negation other.type)))

/-- Whether the `left` operand of the logical operator `op` decides: a true one decides `or`, and a
    false one every other. -/
def decides (op : Operator) (left : Value) : Bool :=
  if op = .or then left.truthy else !left.truthy

end Operation

end Scripting
