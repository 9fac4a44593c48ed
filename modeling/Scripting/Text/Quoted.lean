import Scripting.Text.Hexadecimal
import Scripting.Text.Printable

set_option autoImplicit false

/-! # Quoted text

The written form of a text inside a report (`quoted`): between quotes, with every character that
would be invisible or ambiguous written as an escape (`escaped`). Single quotes are used unless the
text holds a single quote and no double quote (`quoteMark`). -/

namespace Scripting.Text

/-- The quote that encloses the text `s`: a double quote only where it saves an escape. -/
def quoteMark (s : List Char) : Char :=
  if s.contains '\'' && !s.contains '"' then '"' else '\''

/-- The character `c` inside quotes: the quote `mark` in use and the backslash stand behind a
    backslash, the three common control characters have a letter, and the other characters that
    cannot be printed are written by number in the shortest of three widths. -/
def escaped (mark c : Char) : String :=
  if c = mark || c = '\\' then String.ofList ['\\', c]
  else if c = '\n' then "\\n"
  else if c = '\r' then "\\r"
  else if c = '\t' then "\\t"
  else if isPrintable c then c.toString
  else if c.toNat < 0x100 then "\\x" ++ hexadecimal 2 c.toNat
  else if c.toNat < 0x10000 then "\\u" ++ hexadecimal 4 c.toNat
  else "\\U" ++ hexadecimal 8 c.toNat

/-- The text `s` between quotes, with escapes. -/
def quoted (s : String) : String :=
  let mark := quoteMark s.toList
  mark.toString ++ String.join (s.toList.map (escaped mark)) ++ mark.toString

end Scripting.Text
