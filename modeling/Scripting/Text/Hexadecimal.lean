set_option autoImplicit false

/-! # Hexadecimal digits

Escapes, percent-encoded bytes and reports about raw bytes write numbers in base sixteen
(`hexadecimal`, `upperHexadecimal`), padded with zeros to a fixed width. -/

namespace Scripting.Text

/-- Lower-case hexadecimal digits of `n`, with zeros in front up to `width` digits. -/
def hexadecimal (width n : Nat) : String :=
  let digits := Nat.toDigits 16 n
  String.ofList (List.replicate (width - digits.length) '0' ++ digits)

/-- Upper-case hexadecimal digits of `n`, with zeros in front up to `width` digits. -/
def upperHexadecimal (width n : Nat) : String :=
  (hexadecimal width n).toUpper

/-- The value of a hexadecimal digit in either case. -/
def hexadecimalValue? (c : Char) : Option Nat :=
  if c.isDigit then some (c.toNat - '0'.toNat)
  else if 'a' ≤ c && c ≤ 'f' then some (c.toNat - 'a'.toNat + 10)
  else if 'A' ≤ c && c ≤ 'F' then some (c.toNat - 'A'.toNat + 10)
  else none

end Scripting.Text
