import Scripting.Text.Blank
import Scripting.Text.DecimalDigit

set_option autoImplicit false

/-! # Integers in settings

A setting is read by `integer?` as an integer in decimal digits of any script (`decimalDigit?`),
with the white space of Unicode around it, an optional sign, and single underscores between digits.
An information separator is no such white space. A text of more than `maxDigits` digits is refused,
as reading it would take time quadratic in its length. -/

namespace Scripting.Text

/-- The most digits an integer may have. -/
def maxDigits : Nat := 4300

/-- The values of digits with single underscores between them. `separable` tells whether an
    underscore may come next, which it may after a digit only. -/
def digitGroups? (separable : Bool) : List Char → Option (List Nat)
  | [] => if separable then some [] else none
  | c :: rest =>
    match decimalDigit? c with
    | some d => (digitGroups? true rest).map (d :: ·)
    | none => if c = '_' && separable then digitGroups? false rest else none

/-- The number that the decimal `digits` denote. -/
def ofDigits (digits : List Nat) : Nat :=
  digits.foldl (fun n d => 10 * n + d) 0

/-- Read `s` as an integer setting. -/
def integer? (s : List Char) : Option Int :=
  let (negative, digits) :=
    match trimWhile isWhiteSpace s with
    | '-' :: rest => (true, rest)
    | '+' :: rest => (false, rest)
    | rest => (false, rest)
  match digitGroups? false digits with
  | none => none
  | some values =>
    if values.length > maxDigits then none
    else
      let n : Int := ofDigits values
      some (if negative then -n else n)

end Scripting.Text
