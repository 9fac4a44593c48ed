import Scripting.Text.Lines

set_option autoImplicit false

/-! # Lines that are typed

A stream of input is read line by line, as `takeLine` takes them. The `lines` are told here by the
stream as a whole, each without the line feed that ends it; what comes behind the last line feed is
a line of its own if it is not empty. -/

namespace Scripting.Text

/-- The lines of a stream. -/
def lines : List Char → List (List Char)
  | [] => []
  | c :: rest =>
    if c = '\n' then [] :: lines rest
    else match lines rest with
      | [] => [[c]]
      | line :: more => (c :: line) :: more

/-- What is left of a stream behind so many lines. -/
def dropLines : Nat → List Char → List Char
  | 0, s => s
  | n + 1, s => (takeLine (dropLines n s)).2

/-- A `line` as it is taken from a stream, without the line feed. -/
def withoutLineFeed (line : List Char) : List Char :=
  if line.getLast? = some '\n' then line.dropLast else line

theorem takeLine_cons (c : Char) (rest : List Char) :
    takeLine (c :: rest) =
      if c = '\n' then ([c], rest) else (c :: (takeLine rest).1, (takeLine rest).2) := by
  by_cases hc : c = '\n'
  · simp [takeLine, hc]
  · have hdrop : (c :: rest).dropWhile (· != '\n') = rest.dropWhile (· != '\n') := by
      simp [hc]
    unfold takeLine
    rw [hdrop, if_neg hc]
    split <;> simp [hc]

theorem lines_eq_nil_iff {s : List Char} : lines s = [] ↔ s = [] := by
  cases s with
  | nil => simp [lines]
  | cons c rest =>
    simp only [lines, reduceCtorEq, iff_false]
    split
    · simp
    · split <;> simp

/-- The first line of the stream `s` is the one that `takeLine` takes from it. -/
theorem lines_of_ne_nil {s : List Char} (h : s ≠ []) :
    lines s = withoutLineFeed (takeLine s).1 :: lines (takeLine s).2 := by
  induction s with
  | nil => exact absurd rfl h
  | cons c rest ih =>
    rw [takeLine_cons]
    by_cases hc : c = '\n'
    · simp [lines, hc, withoutLineFeed]
    rw [if_neg hc]
    simp only [lines, if_neg hc]
    cases rest with
    | nil => simp [lines, takeLine, withoutLineFeed, hc]
    | cons d rest =>
      rw [ih (by simp)]
      have htaken : (takeLine (d :: rest)).1 ≠ [] := by simp [takeLine_fst_eq_nil_iff]
      have hlast : (c :: (takeLine (d :: rest)).1).getLast? =
          (takeLine (d :: rest)).1.getLast? := by
        rw [List.getLast?_cons_of_ne_nil htaken]
      simp only [withoutLineFeed, hlast, List.cons.injEq, and_true]
      split
      · rw [List.dropLast_cons_of_ne_nil htaken]
      · rfl

/-- The lines that are left behind the first `n`. -/
theorem lines_dropLines (n : Nat) (s : List Char) : lines (dropLines n s) = (lines s).drop n := by
  induction n with
  | zero => rfl
  | succ n ih =>
    rw [dropLines, ← List.tail_drop, ← ih]
    by_cases hnil : dropLines n s = []
    · simp [hnil, takeLine, lines]
    · rw [lines_of_ne_nil hnil, List.tail_cons]

/-- There are no more `lines` than characters. -/
theorem length_lines_le (s : List Char) : (lines s).length ≤ s.length := by
  induction s with
  | nil => simp [lines]
  | cons c rest ih =>
    simp only [lines]
    split
    · simpa using ih
    · split
      · simp
      · rename_i hlines
        rw [hlines] at ih
        simp only [List.length_cons] at ih ⊢
        omega

end Scripting.Text
