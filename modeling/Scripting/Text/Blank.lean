import Scripting.Text.Ranges

set_option autoImplicit false

/-! # Blank characters and trimming

Text is read with the blanks around it taken off. Which characters are blank depends on what is
read: around an integer of the settings it is `isWhiteSpace`, the white space of Unicode; around a
line of input and a command of the interactive loop it is `isBlank`, which counts the four
information separators as well. Either set is larger than that of the blanks, tabs and line ends
that a program may contain between its tokens. -/

namespace Scripting.Text

/-! ## Sets of blanks -/

/-- The white space of Unicode text. -/
def whiteSpaceRanges : Ranges :=
  [(0x09, 0x0D), (0x20, 0x20), (0x85, 0x85), (0xA0, 0xA0), (0x1680, 0x1680), (0x2000, 0x200A),
   (0x2028, 0x2029), (0x202F, 0x202F), (0x205F, 0x205F), (0x3000, 0x3000)]

/-- Whether a character is white space of Unicode text. -/
def isWhiteSpace (c : Char) : Bool :=
  whiteSpaceRanges.contains c

/-- The separators of files, groups, records and units. -/
def separatorRanges : Ranges := [(0x1C, 0x1F)]

/-- Whether a character is one of the four information separators (`separatorRanges`). -/
def isSeparator (c : Char) : Bool :=
  separatorRanges.contains c

/-- Whether a character is blank around a line: white space (`isWhiteSpace`) or an information
    separator (`isSeparator`). -/
def isBlank (c : Char) : Bool :=
  isWhiteSpace c || isSeparator c

theorem isBlank_of_isWhiteSpace {c : Char} (h : isWhiteSpace c = true) : isBlank c = true := by
  simp [isBlank, h]

/-- Every character that may stand between the tokens of a program is white space. -/
theorem isWhiteSpace_of_mem {c : Char} (h : c ∈ [' ', '\t', '\r', '\n']) :
    isWhiteSpace c = true := by
  simp only [List.mem_cons, List.not_mem_nil, or_false] at h
  rcases h with rfl | rfl | rfl | rfl <;> decide

/-! ## Trimming -/

/-- Drop the longest end of `s` whose characters all satisfy `p`. -/
def dropEndWhile (p : Char → Bool) (s : List Char) : List Char :=
  (s.reverse.dropWhile p).reverse

/-- Drop the characters of `s` that satisfy `p` at both ends. -/
def trimWhile (p : Char → Bool) (s : List Char) : List Char :=
  dropEndWhile p (s.dropWhile p)

/-- Drop what `isBlank` around a line. -/
def trim (s : List Char) : List Char :=
  trimWhile isBlank s

end Scripting.Text
