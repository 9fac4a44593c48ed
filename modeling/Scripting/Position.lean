set_option autoImplicit false

/-! # Positions in a source text

A `Position` is a line and a column, both counted from one, columns in characters. They are integers
and not natural numbers, because a program put together by hand may carry any. -/

namespace Scripting

/-- A line and a column. -/
structure Position where
  line : Int
  column : Int
  deriving DecidableEq, Repr, Inhabited

namespace Position

/-- Where a source text begins. -/
def start : Position := ⟨1, 1⟩

/-- The position that a node has if none is given for it. It lies before `start`. -/
def unknown : Position := ⟨0, 0⟩

/-- The position behind the character `c`, which stands at `p`. -/
def next (p : Position) (c : Char) : Position :=
  if c = '\n' then ⟨p.line + 1, 1⟩ else ⟨p.line, p.column + 1⟩

/-- The position behind the text `s`, which begins at `p`. -/
def after (p : Position) (s : List Char) : Position :=
  s.foldl next p

@[simp] theorem after_nil (p : Position) : p.after [] = p := rfl

@[simp] theorem after_cons (p : Position) (c : Char) (s : List Char) :
    p.after (c :: s) = (p.next c).after s := rfl

theorem after_append (p : Position) (s t : List Char) :
    p.after (s ++ t) = (p.after s).after t := by
  simp [after, List.foldl_append]

end Position

end Scripting
