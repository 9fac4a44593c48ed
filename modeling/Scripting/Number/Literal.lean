set_option autoImplicit false

/-! # Number literals

A number is written as one or more ASCII digits, optionally followed by a point and one or more
digits. Programs and lines of input follow this one rule: `cutLiteral` cuts such a number off,
`parse?` takes a text that is one from end to end, and `ofLiteral` is its value. A sign is no part
of a number. -/

namespace Scripting.Number

/-- Extend the digits `whole` by a point and digits from the front of `rest`. A point is taken only
    where a digit follows it. -/
def cutFraction (whole : List Char) : List Char → List Char × List Char
  | '.' :: d :: rest =>
    if d.isDigit then
      (whole ++ '.' :: d :: rest.takeWhile Char.isDigit, rest.dropWhile Char.isDigit)
    else (whole, '.' :: d :: rest)
  | rest => (whole, rest)

/-- The longest number at the front of `s` and the text behind it; the number is empty where `s`
    begins with none. -/
def cutLiteral (s : List Char) : List Char × List Char :=
  match s.takeWhile Char.isDigit with
  | [] => ([], s)
  | d :: digits => cutFraction (d :: digits) (s.dropWhile Char.isDigit)

theorem cutFraction_append (whole rest : List Char) :
    (cutFraction whole rest).1 ++ (cutFraction whole rest).2 = whole ++ rest := by
  unfold cutFraction
  split
  · split
    · simp
    · rfl
  · rfl

/-- The two parts that `cutLiteral` gives make up the text `s`. -/
theorem cutLiteral_append (s : List Char) : (cutLiteral s).1 ++ (cutLiteral s).2 = s := by
  have h := List.takeWhile_append_dropWhile (p := Char.isDigit) (l := s)
  unfold cutLiteral
  split
  · rfl
  · rename_i hw
    rw [cutFraction_append, ← hw, h]

/-- The whole number that a run of ASCII `digits` denotes. -/
def natOfDigits (digits : List Char) : Nat :=
  Nat.ofDigitChars 10 digits 0

/-- `natOfDigits` reads the decimal digits of `n` back. -/
theorem natOfDigits_toDigits (n : Nat) : natOfDigits (Nat.toDigits 10 n) = n := by
  simp [natOfDigits]

/-- The value of the literal `s`: the nearest number to the decimal, and of two equally near the one
    with an even mantissa. -/
def ofLiteral (s : List Char) : Float :=
  let whole := s.takeWhile Char.isDigit
  let fraction := (s.dropWhile Char.isDigit).drop 1
  Float.ofScientific (natOfDigits (whole ++ fraction)) true fraction.length

/-- The value of `s`, if `s` is a literal from end to end. -/
def parse? (s : List Char) : Option Float :=
  match cutLiteral s with
  | (_ :: _, []) => some (ofLiteral s)
  | _ => none

end Scripting.Number
