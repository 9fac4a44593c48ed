import Scripting.Proofs.Grammar.StatementSoundness

set_option autoImplicit false

/-! # Statements stand where they begin

The `Stmt.position` of a statement is that of the first of its tokens. Since every statement takes a
token, the positions of the statements of a program are found among those of its tokens, in their
order and each at a place of its own. -/

namespace Scripting

/-- The position of a statement. -/
def Stmt.position : Stmt → Position
  | .expression _ p | .declaration _ _ p | .block _ p | .conditional _ _ _ p | .loop _ _ p
  | .function _ _ _ p | .result _ p | .print _ p | .jump _ p => p
  | .stray _ _ => .unknown

/-! ## Readings that place what they read -/

/-- Whether every statement that `r` reads has the position `q`. -/
def Reading.PlacesAt (q : Position) (r : Reading Stmt) : Prop :=
  ∀ ⦃c c' : Cursor⦄ ⦃s : Stmt⦄, r.run c = .ok s c' → s.position = q

/-- Whether every statement that `r` reads has the position at which the reading began. -/
def Reading.PlacesFirst (r : Reading Stmt) : Prop :=
  ∀ ⦃c c' : Cursor⦄ ⦃s : Stmt⦄, r.run c = .ok s c' → s.position = c.current.position

namespace Reading

variable {α : Type} {q : Position} {r r' : Reading Stmt}

theorem PlacesAt.pure {s : Stmt} (h : s.position = q) :
    (Pure.pure s : Reading Stmt).PlacesAt q := by
  intro c c' s' hread
  obtain ⟨rfl, -⟩ := run_pure_eq_ok.1 hread
  exact h

/-- Only the last part of a reading, `f`, gives the statement. -/
theorem PlacesAt.last {first : Reading α} {f : α → Reading Stmt} (h : ∀ a, (f a).PlacesAt q) :
    (first >>= f).PlacesAt q := by
  intro c c' s hread
  obtain ⟨a, c₁, -, hread⟩ := run_bind_eq_ok.1 hread
  exact h a hread

theorem PlacesAt.ite {p : Prop} [Decidable p] (h : r.PlacesAt q) (h' : r'.PlacesAt q) :
    (if p then r else r').PlacesAt q := by
  split
  · exact h
  · exact h'

theorem PlacesFirst.ite {p : Prop} [Decidable p] (h : r.PlacesFirst) (h' : r'.PlacesFirst) :
    (if p then r else r').PlacesFirst := by
  split
  · exact h
  · exact h'

/-- A reading that looks at its first token and keeps the position. -/
theorem PlacesFirst.current {f : Token → Reading Stmt} (h : ∀ t, (f t).PlacesAt t.position) :
    (Reading.current >>= f).PlacesFirst := by
  intro c c' s hread
  rw [run_bind_of_ok run_current] at hread
  exact h _ hread

/-- A reading that takes its first token and keeps the position. -/
theorem PlacesFirst.take {kind : TokenKind} {lexeme : Option String} {f : Token → Reading Stmt}
    (h : ∀ t, (f t).PlacesAt t.position) : (Reading.take kind lexeme >>= f).PlacesFirst := by
  intro c c' s hread
  obtain ⟨t, c₁, htake, hread⟩ := run_bind_eq_ok.1 hread
  obtain ⟨-, rfl, -⟩ := run_take_eq_ok.1 htake
  exact h _ hread

end Reading

/-! ## Statements -/

namespace Grammar

open Reading

variable {g : Nested}

theorem declaration_placesFirst : (declaration g).PlacesFirst := by
  refine .take fun _ => .last fun _ => .ite (.last fun _ => .last fun _ => .last fun _ => ?_)
    (.last fun _ => .last fun _ => ?_)
  all_goals
    exact .ite (.last fun _ => .last fun _ => .last fun _ => .last fun _ => .pure rfl)
      (.last fun _ => .last fun _ => .pure rfl)

theorem function_placesFirst : (function g).PlacesFirst := by
  refine .take fun _ => .last fun _ => .ite (.last fun _ => ?_) ?_
  all_goals
    exact .last fun _ => .last fun _ => .last fun _ => .last fun _ => .last fun _ => .pure rfl

theorem printStatement_placesFirst : (printStatement g).PlacesFirst :=
  .take fun _ => .last fun _ => .last fun _ => .pure rfl

theorem block_placesFirst : (block g).PlacesFirst :=
  .take fun _ => .last fun _ => .last fun _ => .pure rfl

theorem conditional_placesFirst : (conditional g).PlacesFirst :=
  .take fun _ => .last fun _ => .last fun _ => .last fun _ =>
    .ite (.last fun _ => .last fun _ => .last fun _ => .pure rfl) (.last fun _ => .pure rfl)

theorem loop_placesFirst : (loop g).PlacesFirst :=
  .take fun _ => .last fun _ => .last fun _ => .pure rfl

theorem jump_placesFirst (which : Jump) : (jump which).PlacesFirst := by
  refine .current fun _ => .last fun _ => .ite (.last fun _ => ?_) ?_
  all_goals exact .last fun _ => .last fun _ => .pure rfl

theorem result_placesFirst : (result g).PlacesFirst := by
  refine .current fun _ => .last fun _ => .ite (.last fun _ => ?_) ?_
  all_goals
    exact .last fun _ => .last fun _ => .ite (.last fun _ => .last fun _ => .pure rfl)
      (.last fun _ => .last fun _ => .last fun _ => .pure rfl)

theorem expressionStatement_placesFirst : (expressionStatement g).PlacesFirst :=
  .current fun _ => .last fun _ => .last fun _ => .pure rfl

/-- A statement that `statement` reads has the position of its first token. -/
theorem statement_placesFirst : (statement g).PlacesFirst := by
  have hkeyword (keyword : String) : (keywordStatement g keyword).PlacesFirst := by
    unfold keywordStatement
    split
    · exact declaration_placesFirst
    · exact function_placesFirst
    · exact printStatement_placesFirst
    · exact conditional_placesFirst
    · exact loop_placesFirst
    · exact result_placesFirst
    · exact jump_placesFirst .leave
    · exact jump_placesFirst .again
    · exact expressionStatement_placesFirst
  intro c c' s h
  unfold statement at h
  rw [run_bind_of_ok run_current] at h
  exact PlacesFirst.ite (hkeyword _) (.ite block_placesFirst expressionStatement_placesFirst) h

end Grammar

/-! ## Programs -/

/-- The positions of the statements of a program that `ofTokens` reads are found among those of its
    tokens, in order. -/
theorem Program.positions_sublist {depth : Nat} {tokens : List Token} {p : Program}
    (h : ofTokens depth tokens = .ok p) :
    (p.map Stmt.position).Sublist (tokens.map Token.position) := by
  obtain ⟨c, c', hc, -, rfl, hrun⟩ := exists_run_of_ofTokens h
  unfold Grammar.program at hrun
  obtain ⟨done, c₁, hloop, hrun⟩ := Reading.run_bind_eq_ok.1 hrun
  obtain ⟨_, c₂, -, hrun⟩ := Reading.run_bind_eq_ok.1 hrun
  obtain ⟨rfl, -⟩ := Reading.run_pure_eq_ok.1 hrun
  -- what is read so far is placed among the tokens that are passed so far
  obtain ⟨c₃, -, ⟨passed, hpassed, hplaced⟩, -⟩ := Reading.repeatFrom_invariant
    (I := fun done c₁ => ∃ passed, c.current :: c.ahead = passed ++ c₁.current :: c₁.ahead ∧
      (done.reverse.map Stmt.position).Sublist (passed.map Token.position))
    (by
      rintro done done' c₁ c₂ hc₁ ⟨passed, hpassed, hplaced⟩ hread
      obtain ⟨s, hs, rfl⟩ := Grammar.oneMoreInProgram_eq_some hread
      obtain ⟨-, hwf, hspells⟩ := Grammar.statement_sound (Grammar.nested_sound depth) hc₁ hs
      obtain ⟨first, words, hfirst, -⟩ := Stmt.exists_spelled_eq_cons hwf
      rw [hfirst] at hspells
      refine ⟨?_, first, words, hspells⟩
      obtain ⟨taken, htaken, hwords⟩ := hspells.exists_tokens hc₁
      cases taken with
      | nil => simp at hwords
      | cons t taken =>
        rw [List.cons_append, List.cons.injEq] at htaken
        obtain ⟨ht, htaken⟩ := htaken
        have hposition : s.position = t.position := ht ▸ Grammar.statement_placesFirst hs
        refine ⟨passed ++ t :: taken, by simp [hpassed, ht, htaken], ?_⟩
        rw [List.reverse_cons, List.map_append, List.map_append, List.map_cons, List.map_cons,
          hposition]
        exact hplaced.append (.cons_cons _ (List.nil_sublist _)))
    hc ⟨[], rfl, .refl _⟩ hloop
  rw [hpassed, List.map_append]
  exact hplaced.trans (List.sublist_append_left _ _)

end Scripting
