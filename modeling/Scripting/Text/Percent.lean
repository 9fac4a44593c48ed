import Scripting.Text.Hexadecimal

set_option autoImplicit false

/-! # Percent-encoded paths

In a document's address a path is written as the bytes of its UTF-8 form. Letters, digits, the
marks `_ . - ~` and the path separator stand for themselves; any other byte is written as a percent
sign and two hexadecimal digits. A path is read back from any address: a percent sign without two
digits behind it stands for itself. -/

namespace Scripting.Text

/-- Whether a byte of a path stands for itself in an address. -/
def isUnreserved (c : Char) : Bool :=
  c.isAlphanum || c = '_' || c = '.' || c = '-' || c = '~' || c = '/'

/-- The byte `b` as a percent sign and two hexadecimal digits. -/
def percentByte (b : UInt8) : String :=
  let c := Char.ofNat b.toNat
  if b < 0x80 && isUnreserved c then c.toString else "%" ++ upperHexadecimal 2 b.toNat

/-- The `path` as it is written in an address, each byte of it `isUnreserved` or a `percentByte`. -/
def percentEncoded (path : String) : String :=
  String.join (path.toUTF8.toList.map percentByte)

/-- The byte that two hexadecimal digits behind a percent sign stand for. -/
def escapedByte? : List Char → Option UInt8
  | high :: low :: _ => do
    let h ← hexadecimalValue? high
    let l ← hexadecimalValue? low
    return UInt8.ofNat (16 * h + l)
  | _ => none

/-- The bytes that a part of an address stands for. `skipped` counts the characters in front that
    belong to the escape before them. -/
def percentBytes : Nat → List Char → List UInt8
  | _, [] => []
  | skipped + 1, _ :: rest => percentBytes skipped rest
  | 0, c :: rest =>
    match if c = '%' then escapedByte? rest else none with
    | some b => b :: percentBytes 2 rest
    | none => c.toString.toUTF8.toList ++ percentBytes 0 rest

/-- The path that a part of an address stands for. A part that stands for no text is left as it is,
    and `percentDecoded` undoes `percentEncoded`. -/
def percentDecoded (address : String) : String :=
  (String.fromUTF8? ⟨(percentBytes 0 address.toList).toArray⟩).getD address

end Scripting.Text
