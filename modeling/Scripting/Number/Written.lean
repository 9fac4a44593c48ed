import Scripting.Number.Shortest
import Scripting.Text.Integer

set_option autoImplicit false

/-! # Numbers in writing

A number is written in two ways. A report of a program's tree keeps the point, so that `1.0` is
seen to be a number of the program, and turns to an exponent for large and for small numbers. What
a program prints has no point where the number is whole: the number is then written as an exact
integer, however large, and only the others take the first form. -/

namespace Scripting.Number

open Float.Model (UnpackedFloat)
open Float.Model.UnpackedFloat (Sign)

/-! ## Layout of digits -/

/-- Where a number turns from positional notation to an exponent, by the place of its point relative
    to its first digit, and the least number of digits of an exponent. -/
structure Layout where
  leastPoint : Int
  greatestPoint : Int
  exponentDigits : Nat

/-- From one ten-thousandth up to sixteen digits before the point a number is `positional`; an
    exponent has two digits or more. -/
def layout : Layout := ⟨-3, 16, 2⟩

/-- The digits of `n`, padded with zeros in front to the least width `width`. -/
def padded (width n : Nat) : List Char :=
  let digits := Nat.toDigits 10 n
  List.replicate (width - digits.length) '0' ++ digits

/-- The `digits` with the point at the place `point`, and a digit on either side of it. -/
def positional (digits : List Char) (point : Int) : List Char :=
  if point ≤ 0 then '0' :: '.' :: (List.replicate (-point).toNat '0' ++ digits)
  else
    let whole := point.toNat
    if digits.length ≤ whole then
      digits ++ List.replicate (whole - digits.length) '0' ++ ['.', '0']
    else digits.take whole ++ '.' :: digits.drop whole

/-- The `digits` with the point behind the first of them, if there are more, and an exponent. -/
def exponential (l : Layout) (digits : List Char) (point : Int) : List Char :=
  let mantissa := match digits with
    | d :: e :: rest => d :: '.' :: e :: rest
    | _ => digits
  let exponent := point - 1
  let sign := if exponent < 0 then '-' else '+'
  mantissa ++ 'e' :: sign :: padded l.exponentDigits exponent.natAbs

/-- A positive decimal in the notation that its size calls for by `l`. -/
def Decimal.text (l : Layout) (d : Decimal) : List Char :=
  let all := Nat.toDigits 10 d.digits
  let point := all.length + d.scale
  let digits := Text.dropEndWhile (· = '0') all
  if l.leastPoint ≤ point ∧ point ≤ l.greatestPoint then positional digits point
  else exponential l digits point

/-! ## The two written forms -/

/-- A minus sign before what is negative. -/
def signed (sign : Sign) (text : List Char) : String :=
  String.ofList (match sign with
    | .negative => '-' :: text
    | .positive => text)

/-- A number as it stands in the report of a tree. -/
def written (f : Float) : String :=
  match f.toModel.unpack with
  | .notANumber => "nan"
  | .infinity sign => signed sign ['i', 'n', 'f']
  | .zero sign => signed sign ['0', '.', '0']
  | .finite sign mantissa exponent _ => signed sign ((shortest mantissa exponent).text layout)

/-- The whole number that `mantissa · 2 ^ exponent` is, if it is one. -/
def whole? (mantissa : Nat) (exponent : Int) : Option Nat :=
  if 0 ≤ exponent then some (mantissa * Nat.pow 2 exponent.toNat)
  else
    let den := Nat.pow 2 (-exponent).toNat
    if mantissa % den = 0 then some (mantissa / den) else none

/-- Whether a number is whole, as `whole?` tells. Infinities and what is no number are not. -/
def isWhole (f : Float) : Bool :=
  match f.toModel.unpack with
  | .zero _ => true
  | .finite _ mantissa exponent _ => (whole? mantissa exponent).isSome
  | _ => false

/-- The whole number that is left of `mantissa · 2 ^ exponent` without its fraction. -/
def wholePart (mantissa : Nat) (exponent : Int) : Nat :=
  if 0 ≤ exponent then mantissa * Nat.pow 2 exponent.toNat
  else mantissa / Nat.pow 2 (-exponent).toNat

/-- The whole number `n` in decimal digits with its `sign`, unless it has too many digits to be
    written. -/
def integerText? (sign : Sign) (n : Nat) : Option String :=
  let digits := Nat.toDigits 10 n
  if digits.length ≤ Text.maxDigits then some (signed sign digits) else none

/-- A number without its fraction, in decimal digits. Infinities and what is no number have no whole
    part to be written. -/
def wholeText? (f : Float) : Option String :=
  match f.toModel.unpack with
  | .zero _ => integerText? .positive 0
  | .finite sign mantissa exponent _ => integerText? sign (wholePart mantissa exponent)
  | _ => none

/-- A number as a program prints it, if it can be written. -/
def printed? (f : Float) : Option String :=
  -- only a whole number is cut to its whole part, which a number that is not finite does not have
  if isWhole f then wholeText? f else some (written f)

end Scripting.Number
