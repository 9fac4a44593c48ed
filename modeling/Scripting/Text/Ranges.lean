set_option autoImplicit false

/-! # Sets of code points given by ranges

A character class of the Unicode standard is carried as `Ranges`, a list of closed ranges of code
points. `Ranges.contains` is a linear search: the tables are short, and only text beyond ASCII
reaches the long ones. -/

namespace Scripting.Text

/-- A set of code points, as closed ranges. -/
abbrev Ranges := List (Nat × Nat)

/-- Whether the code point of `c` lies in one of the ranges. -/
def Ranges.contains (ranges : Ranges) (c : Char) : Bool :=
  ranges.any fun r => r.1 ≤ c.toNat && c.toNat ≤ r.2

end Scripting.Text
