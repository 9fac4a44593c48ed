import Scripting.Text.Hexadecimal

set_option autoImplicit false

/-! # Reading UTF-8

Bytes are read by `decodeUtf8` as UTF-8 from left to right. The first sequence that is not well
formed ends the reading with a report of the bytes at fault, a `Utf8Fault`: a byte that begins no
sequence, a sequence broken off by a byte that does not continue it, or a sequence cut short by the
end of the data. -/

namespace Scripting.Text

/-! ## Faults -/

/-- What is wrong with a sequence of bytes. -/
inductive Utf8Flaw where
  /-- The byte begins no sequence. -/
  | startByte
  /-- A byte of the sequence is not followed by one that continues it. -/
  | continuationByte
  /-- The data end inside the sequence. -/
  | endOfData
  deriving DecidableEq, Repr

/-- A malformed sequence: the `offset` of its first byte, that byte, and how many bytes belong to
    the sequence before it goes wrong. -/
structure Utf8Fault where
  flaw : Utf8Flaw
  offset : Nat
  byte : Nat
  length : Nat
  deriving DecidableEq, Repr

/-- The flaw in words. -/
def Utf8Flaw.text : Utf8Flaw → String
  | .startByte => "invalid start byte"
  | .continuationByte => "invalid continuation byte"
  | .endOfData => "unexpected end of data"

/-- The report of a malformed sequence: a single byte is named, several are given by their
    offsets. -/
def Utf8Fault.message (f : Utf8Fault) : String :=
  let place :=
    if f.length = 1 then s!"byte 0x{hexadecimal 2 f.byte} in position {f.offset}"
    else s!"bytes in position {f.offset}-{f.offset + f.length - 1}"
  s!"'utf-8' codec can't decode {place}: {f.flaw.text}"

/-! ## Sequences -/

/-- How many bytes a sequence has that begins with the byte `first`, and the range in which the
    second byte must lie. The narrower ranges rule out overlong forms, surrogates and code points
    above U+10FFFF. -/
def sequenceShape? (first : Nat) : Option (Nat × Nat × Nat) :=
  if first < 0x80 then some (1, 0x80, 0xBF)
  else if first < 0xC2 then none
  else if first < 0xE0 then some (2, 0x80, 0xBF)
  else if first = 0xE0 then some (3, 0xA0, 0xBF)
  else if first = 0xED then some (3, 0x80, 0x9F)
  else if first < 0xF0 then some (3, 0x80, 0xBF)
  else if first = 0xF0 then some (4, 0x90, 0xBF)
  else if first < 0xF4 then some (4, 0x80, 0xBF)
  else if first = 0xF4 then some (4, 0x80, 0x8F)
  else none

/-- The payload of the byte `first` in a sequence of `length` bytes. -/
def leadBits (length first : Nat) : Nat :=
  match length with
  | 1 => first
  | 2 => first % 0x20
  | 3 => first % 0x10
  | _ => first % 0x08

/-- Read the continuation bytes that a sequence still owes. The next one must lie in the given
    range, those after it in the full range; `code` is the payload so far and `seen` the number of
    bytes read. The `Utf8Flaw` comes with the number of bytes before it. -/
def continueSequence : Nat → Nat → Nat → Nat → Nat → List UInt8 →
    Except (Utf8Flaw × Nat) (Nat × List UInt8)
  | 0, _, _, code, _, rest => .ok (code, rest)
  | _ + 1, _, _, _, seen, [] => .error (.endOfData, seen)
  | owed + 1, lo, hi, code, seen, b :: rest =>
    if lo ≤ b.toNat && b.toNat ≤ hi then
      continueSequence owed 0x80 0xBF (code * 0x40 + b.toNat % 0x40) (seen + 1) rest
    else .error (.continuationByte, seen)

theorem continueSequence_length {owed lo hi code seen : Nat} {bytes rest : List UInt8} {n : Nat}
    (h : continueSequence owed lo hi code seen bytes = .ok (n, rest)) :
    rest.length ≤ bytes.length := by
  induction owed generalizing lo hi code seen bytes with
  | zero => simp only [continueSequence] at h; cases h; exact Nat.le_refl _
  | succ owed ih =>
    cases bytes with
    | nil => simp [continueSequence] at h
    | cons b bytes =>
      simp only [continueSequence] at h
      split at h
      · exact Nat.le_succ_of_le (ih h)
      · simp at h

/-- Read `bytes`, which begin at `offset`. `done` holds the characters read so far, last first. -/
def decodeFrom (offset : Nat) (done : List Char) (bytes : List UInt8) :
    Except Utf8Fault (List Char) :=
  match bytes with
  | [] => .ok done.reverse
  | b :: rest =>
    match sequenceShape? b.toNat with
    | none => .error ⟨.startByte, offset, b.toNat, 1⟩
    | some (length, lo, hi) =>
      match _read : continueSequence (length - 1) lo hi (leadBits length b.toNat) 1 rest with
      | .error (flaw, seen) => .error ⟨flaw, offset, b.toNat, seen⟩
      | .ok (code, after) => decodeFrom (offset + length) (Char.ofNat code :: done) after
termination_by bytes.length
decreasing_by exact Nat.lt_succ_of_le (continueSequence_length _read)

/-- Read `bytes` as UTF-8 text. -/
def decodeUtf8 (bytes : ByteArray) : Except Utf8Fault String :=
  (decodeFrom 0 [] bytes.toList).map String.ofList

end Scripting.Text
