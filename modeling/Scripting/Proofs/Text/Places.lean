import Mathlib.Data.List.Induction
import Mathlib.Data.List.TakeWhile
import Scripting.Position
import Scripting.Text.Lines

set_option autoImplicit false

/-! # Places in a source text

The position behind a text, `Position.after`, is told by its line feeds and by what stands behind
the last of them. It leads back to the place: behind as many lines, and as many characters of the
next one, stands what follows the text. -/

namespace Scripting

namespace Text

/-- The text from a `line` and a `column` on, both counted from one. -/
def from? (line column : Nat) (s : List Char) : Option (List Char) :=
  (afterLines (line - 1) s).map (List.drop (column - 1))

theorem afterLines_succ (n : Nat) (s : List Char) :
    afterLines (n + 1) s = (afterLines n s).bind (afterLines 1) := by
  induction s generalizing n with
  | nil => cases n <;> rfl
  | cons c rest ih =>
    cases n with
    | zero => rfl
    | succ n =>
      rw [afterLines, afterLines]
      split
      · exact ih n
      · exact ih (n + 1)

theorem afterLines_one_append {line : List Char} (h : '\n' ∉ line) (rest : List Char) :
    afterLines 1 (line ++ '\n' :: rest) = some rest := by
  induction line with
  | nil => simp [afterLines]
  | cons c line ih =>
    simp only [List.mem_cons, not_or] at h
    simpa [afterLines, Ne.symm h.1] using ih h.2

end Text

namespace Position

/-- The line and the column behind the text `before`, and the way back to what follows it. -/
theorem exists_lastLine (before : List Char) :
    ∃ line, '\n' ∉ line ∧ start.after before = ⟨before.count '\n' + 1, line.length + 1⟩ ∧
      ∀ rest, Text.afterLines (before.count '\n') (before ++ rest) = some (line ++ rest) := by
  induction before using List.reverseRecOn with
  | nil => exact ⟨[], by simp, rfl, fun rest => by simp [Text.afterLines]⟩
  | append_singleton before c ih =>
    obtain ⟨line, hline, hafter, hback⟩ := ih
    rw [after_append, hafter]
    by_cases hc : c = '\n'
    · subst hc
      refine ⟨[], by simp, by simp [next], fun rest => ?_⟩
      rw [List.count_append, List.count_singleton_self, Text.afterLines_succ, List.append_assoc,
        hback]
      exact Text.afterLines_one_append hline rest
    · refine ⟨line ++ [c], by simp [hline, Ne.symm hc], by simp [next, hc], fun rest => ?_⟩
      rw [List.count_append, List.count_singleton, if_neg (by simpa using hc), List.append_assoc,
        List.append_assoc]
      exact hback _

/-- Whether the position `p` is that of `rest`, what is left of `source` behind some text. -/
def Begins (p : Position) (source rest : List Char) : Prop :=
  ∃ before, before ++ rest = source ∧ start.after before = p

theorem start_begins (source : List Char) : start.Begins source source :=
  ⟨[], rfl, rfl⟩

theorem Begins.after {p : Position} {source text rest : List Char}
    (h : p.Begins source (text ++ rest)) : (p.after text).Begins source rest := by
  obtain ⟨before, rfl, rfl⟩ := h
  exact ⟨before ++ text, by simp, after_append _ _ _⟩

/-- The line and the column of a position where something `Begins`, and what stands there. -/
theorem Begins.exists_line {p : Position} {source rest : List Char} (h : p.Begins source rest) :
    ∃ (line column : Nat) (text : List Char), p = ⟨line, column⟩ ∧
      1 ≤ line ∧ line ≤ source.count '\n' + 1 ∧ 1 ≤ column ∧ column ≤ text.length + 1 ∧
      Text.line? (line - 1) source = some text ∧ '\n' ∉ text ∧
      Text.from? line column source = some rest := by
  obtain ⟨before, rfl, rfl⟩ := h
  obtain ⟨line, hline, hafter, hback⟩ := exists_lastLine before
  have htext : (line ++ rest).takeWhile (· != '\n') = line ++ rest.takeWhile (· != '\n') :=
    List.takeWhile_append_of_pos fun c hc => by simpa using ne_of_mem_of_not_mem hc hline
  have hrest : '\n' ∉ rest.takeWhile (· != '\n') :=
    fun hmem => by simpa using List.mem_takeWhile_imp hmem
  refine ⟨before.count '\n' + 1, line.length + 1, line ++ rest.takeWhile (· != '\n'),
    by simp [hafter], by omega, by simp, by omega, by simp, ?_, by simp [hline, hrest], ?_⟩
  · simp [Text.line?, hback, htext]
  · simp [Text.from?, hback]

/-- What `Begins` at a position of a source is told by the position. -/
theorem Begins.unique {p : Position} {source rest rest' : List Char} (h : p.Begins source rest)
    (h' : p.Begins source rest') : rest = rest' := by
  obtain ⟨line, column, _, rfl, -, -, -, -, -, -, hfrom⟩ := h.exists_line
  obtain ⟨line', column', _, hp, -, -, -, -, -, -, hfrom'⟩ := h'.exists_line
  simp only [Position.mk.injEq, Int.natCast_inj] at hp
  obtain ⟨rfl, rfl⟩ := hp
  rw [hfrom] at hfrom'
  exact Option.some.inj hfrom'

end Position

end Scripting
