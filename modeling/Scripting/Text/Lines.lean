set_option autoImplicit false

/-! # Lines of text

A line ends at a line feed and nowhere else. The functions here cut text into lines (`line?`,
`wholeLines`), take one line from an input stream (`takeLine`), and read the three conventions for
line ends as one (`unifyLineEnds`). -/

namespace Scripting.Text

/-- The part of the text after its first `n` line feeds; `none` if it has fewer. -/
def afterLines : Nat → List Char → Option (List Char)
  | 0, s => some s
  | _ + 1, [] => none
  | n + 1, c :: rest => if c = '\n' then afterLines n rest else afterLines (n + 1) rest

/-- The line of `s` with the index `n`, counted from zero, without its line feed. Text that ends in
    a line feed has an empty last line, so the empty text has one line. -/
def line? (n : Nat) (s : List Char) : Option (List Char) :=
  (afterLines n s).map fun rest => rest.takeWhile (· != '\n')

/-- The first line of the stream `s` with its line feed, and the rest of the stream. The line is
    empty only at the end of the stream (`takeLine_fst_eq_nil_iff`). -/
def takeLine (s : List Char) : List Char × List Char :=
  match s.dropWhile (· != '\n') with
  | [] => (s, [])
  | _ :: rest => (s.takeWhile (· != '\n') ++ ['\n'], rest)

/-- The line that `takeLine` gives and the rest make up the stream. -/
theorem takeLine_append (s : List Char) : (takeLine s).1 ++ (takeLine s).2 = s := by
  have h := List.takeWhile_append_dropWhile (p := (· != '\n')) (l := s)
  unfold takeLine
  split
  · simp
  · rename_i c rest hrest
    have hc : c = '\n' := by
      have hne := List.head?_dropWhile_not (· != '\n') s
      simpa [hrest] using hne
    rw [hrest, hc] at h
    simpa using h

/-- Only a stream at its end has an empty line. -/
theorem takeLine_fst_eq_nil_iff {s : List Char} : (takeLine s).1 = [] ↔ s = [] := by
  unfold takeLine
  split
  · simp
  · rename_i hrest
    constructor
    · simp
    · rintro rfl; simp at hrest

/-- Read a carriage return, alone or followed by a line feed, as one line feed. `done` holds the
    text already read, last character first. -/
def unifyLineEndsFrom (done : List Char) : List Char → List Char
  | [] => done.reverse
  | '\r' :: '\n' :: rest => unifyLineEndsFrom ('\n' :: done) rest
  | '\r' :: rest => unifyLineEndsFrom ('\n' :: done) rest
  | c :: rest => unifyLineEndsFrom (c :: done) rest

/-- Write every line end of `s`, whichever of the three conventions it follows, as a line feed. -/
def unifyLineEnds (s : List Char) : List Char :=
  unifyLineEndsFrom [] s

/-- The lines of `s` that are ended by a line feed. -/
def wholeLines (s : List Char) : List Char :=
  (s.reverse.dropWhile (· != '\n')).reverse

end Scripting.Text
