import Mathlib.Data.List.Nodup
import Scripting.Proofs.Grammar.ExpressionSoundness
import Scripting.Proofs.Grammar.Opening

set_option autoImplicit false

/-! # What the programs that are read look like

A program that `Program.ofTokens` reads is one of the grammar, and the tokens that it was read from
spell it. Every reading of a statement `Gives` one that is well-formed in the `Cursor.setting` for
which its cursor stands: the counts of loops and functions around the cursor are other than zero
exactly inside loops and functions. The levels of nesting are left for the end, where an induction
on `depth` ties the readings together. -/

namespace Scripting

/-- Whether the reading `r` gives statements of a `shape` that are well-formed where they stand. -/
def Reading.Gives (shape : Stmt → Prop) (r : Reading Stmt) : Prop :=
  ∀ ⦃c c' : Cursor⦄ ⦃s : Stmt⦄, c.Closed → r.run c = .ok s c' →
    shape s ∧ s.WellFormed c.setting ∧ c.Spells s.spelled c'

/-- A block may stand behind `else`. -/
theorem Reading.Gives.isAlternative {r : Reading Stmt} (h : r.Gives Stmt.IsBlock) :
    r.Gives Stmt.IsAlternative := by
  intro c c' s hc hread
  obtain ⟨hblock, hrest⟩ := h hc hread
  cases s <;> first | exact ⟨trivial, hrest⟩ | exact hblock.elim

/-- Whether the parts of `g`, which may be nested, are read soundly. -/
structure Nested.Sound (g : Nested) : Prop where
  expression : g.expression.SoundAt 0
  operand : g.operand.SoundAt 7
  statement : g.statement.Gives fun _ => True
  conditional : g.conditional.Gives Stmt.IsAlternative

namespace Grammar

open Reading

variable {g : Nested}

theorem expression_sound (hg : g.Sound) : (expression g).SoundAt 0 :=
  assignment_sound hg.expression hg.operand

/-! ## Statements without bodies -/

theorem expressionStatement_sound (hg : g.Sound) : (expressionStatement g).Gives fun _ => True := by
  intro c c' s hc h
  unfold expressionStatement at h
  rw [run_bind_of_ok run_current] at h
  obtain ⟨e, c₁, he, h⟩ := run_bind_eq_ok.1 h
  obtain ⟨hend, h⟩ := run_eatMark_bind_eq_ok.1 h
  obtain ⟨rfl, rfl⟩ := run_pure_eq_ok.1 h
  obtain ⟨hwf, -, hspells, -⟩ := expression_sound hg hc he
  exact ⟨trivial, hwf, hspells.append (.single hend)⟩

theorem printStatement_sound (hg : g.Sound) : (printStatement g).Gives fun _ => True := by
  intro c c' s hc h
  unfold printStatement at h
  obtain ⟨hkeyword, h⟩ := (run_eatKeyword_bind_eq_ok rfl).1 h
  obtain ⟨e, c₁, he, h⟩ := run_bind_eq_ok.1 h
  obtain ⟨hend, h⟩ := run_eatMark_bind_eq_ok.1 h
  obtain ⟨rfl, rfl⟩ := run_pure_eq_ok.1 h
  obtain ⟨hwf, -, hspells, -⟩ := expression_sound hg hc.advance he
  exact ⟨trivial, hwf, .cons hkeyword (hspells.append (.single hend))⟩

theorem declaration_sound (hg : g.Sound) : (declaration g).Gives fun _ => True := by
  intro c c' s hc h
  unfold declaration at h
  obtain ⟨hkeyword, h⟩ := (run_eatKeyword_bind_eq_ok rfl).1 h
  rw [run_bind_of_ok run_checkIdentifier] at h
  split at h
  · simp at h
  rename_i hname
  simp only [Bool.not_eq_true', decide_eq_false_iff_not, not_not] at hname
  rw [run_bind_of_ok run_advance, run_bind_of_ok (run_seesOperator _)] at h
  split at h
  · rename_i hequals
    rw [decide_eq_true_iff] at hequals
    rw [run_bind_of_ok run_advance] at h
    obtain ⟨e, c₁, he, h⟩ := run_bind_eq_ok.1 h
    rw [run_pure_bind] at h
    obtain ⟨hend, h⟩ := run_eatMark_bind_eq_ok.1 h
    obtain ⟨rfl, rfl⟩ := run_pure_eq_ok.1 h
    obtain ⟨hwf, -, hspells, -⟩ := expression_sound hg hc.advance.advance.advance he
    refine ⟨trivial, by simpa [Stmt.WellFormed] using hwf, .cons hkeyword (.cons hname ?_)⟩
    exact .cons hequals (hspells.append (.single hend))
  · rw [run_pure_bind] at h
    obtain ⟨hend, h⟩ := run_eatMark_bind_eq_ok.1 h
    obtain ⟨rfl, rfl⟩ := run_pure_eq_ok.1 h
    exact ⟨trivial, by simp [Stmt.WellFormed], .cons hkeyword (.cons hname (.single hend))⟩

theorem jump_sound (which : Jump) {c c' : Cursor} {s : Stmt}
    (hword : c.current.word? = some (.keyword which.keyword)) (h : (jump which).run c = .ok s c') :
    s.WellFormed c.setting ∧ c.Spells s.spelled c' := by
  unfold jump at h
  rw [run_bind_of_ok run_current, run_bind_of_ok run_get] at h
  split at h
  · simp at h
  · rename_i hloops
    rw [run_bind_of_ok run_advance] at h
    obtain ⟨hend, h⟩ := run_eatMark_bind_eq_ok.1 h
    obtain ⟨rfl, rfl⟩ := run_pure_eq_ok.1 h
    exact ⟨by simpa [Stmt.WellFormed, Cursor.setting] using hloops, .cons hword (.single hend)⟩

theorem result_sound (hg : g.Sound) {c c' : Cursor} {s : Stmt} (hc : c.Closed)
    (hword : c.current.word? = some (.keyword "return")) (h : (result g).run c = .ok s c') :
    s.WellFormed c.setting ∧ c.Spells s.spelled c' := by
  unfold result at h
  rw [run_bind_of_ok run_current, run_bind_of_ok run_get] at h
  split at h
  · simp at h
  rename_i hfunctions
  have hsetting : c.setting.inFunction = true := by simpa [Cursor.setting] using hfunctions
  rw [run_bind_of_ok run_advance, run_bind_of_ok (run_seesMark _)] at h
  split at h
  · rw [run_pure_bind] at h
    obtain ⟨hend, h⟩ := run_eatMark_bind_eq_ok.1 h
    obtain ⟨rfl, rfl⟩ := run_pure_eq_ok.1 h
    exact ⟨⟨hsetting, by simp⟩, .cons hword (.single hend)⟩
  · obtain ⟨e, c₁, he, h⟩ := run_bind_eq_ok.1 h
    rw [run_pure_bind] at h
    obtain ⟨hend, h⟩ := run_eatMark_bind_eq_ok.1 h
    obtain ⟨rfl, rfl⟩ := run_pure_eq_ok.1 h
    obtain ⟨hwf, -, hspells, -⟩ := expression_sound hg hc.advance he
    exact ⟨⟨hsetting, by simpa using hwf⟩, .cons hword (hspells.append (.single hend))⟩

/-! ## Bodies -/

/-- Statements are read one by one as long as the step goes on, and they are spelled one after the
    other. -/
theorem statements_sound {r : Reading Stmt} {step : List Stmt → Reading (Option (List Stmt))}
    (hr : r.Gives fun _ => True)
    (hstep : ∀ {done done' : List Stmt} {c c' : Cursor}, (step done).run c = .ok (some done') c' →
      ∃ s, r.run c = .ok s c' ∧ done' = s :: done)
    {c c' : Cursor} {done : List Stmt} (hc : c.Closed)
    (h : (repeatFrom step []).run c = .ok done c') :
    ∃ c₁, (∀ s ∈ done, s.WellFormed c.setting) ∧ c.Spells (Stmt.spelledAll done.reverse) c₁ ∧
      (step done).run c₁ = .ok none c' := by
  obtain ⟨c₁, _, ⟨hwf, hspells⟩, hdecline⟩ := repeatFrom_invariant
    (I := fun done c₁ => (∀ s ∈ done, s.WellFormed c.setting) ∧
      c.Spells (Stmt.spelledAll done.reverse) c₁)
    (by
      rintro done done' c₁ c₂ hc₁ ⟨hwf, hspells⟩ hread
      obtain ⟨s, hs, rfl⟩ := hstep hread
      obtain ⟨-, hwf', hspells'⟩ := hr hc₁ hs
      obtain ⟨first, words, hfirst, -⟩ := Stmt.exists_spelled_eq_cons hwf'
      rw [hspells.setting_eq] at hwf'
      refine ⟨⟨by simpa [hwf'] using hwf, ?_⟩, first, words, hfirst ▸ hspells'⟩
      rw [List.reverse_cons, Stmt.spelledAll_append]
      simpa [Stmt.spelledAll] using hspells.append hspells')
    hc ⟨by simp, .nil _⟩ h
  exact ⟨c₁, hwf, hspells, hdecline⟩

theorem oneMoreInBlock_eq_some {done done' : List Stmt} {c c' : Cursor}
    (h : (oneMoreInBlock g done).run c = .ok (some done') c') :
    ∃ s, g.statement.run c = .ok s c' ∧ done' = s :: done := by
  unfold oneMoreInBlock at h
  rw [run_bind_of_ok (run_seesMark _)] at h
  split at h
  · simp at h
  rw [run_bind_of_ok run_current] at h
  split at h
  · simp at h
  obtain ⟨s, c₁, hs, h⟩ := run_bind_eq_ok.1 h
  obtain ⟨hsome, rfl⟩ := run_pure_eq_ok.1 h
  cases hsome
  exact ⟨s, hs, rfl⟩

/-- The statements of a block come to their end before its closing brace only: at an end of input
    `oneMoreInBlock` is refused. -/
theorem oneMoreInBlock_eq_none {done : List Stmt} {c c' : Cursor}
    (h : (oneMoreInBlock g done).run c = .ok none c') : c' = c := by
  unfold oneMoreInBlock at h
  rw [run_bind_of_ok (run_seesMark _)] at h
  split at h
  · exact (run_pure_eq_ok.1 h).2.symm
  rw [run_bind_of_ok run_current] at h
  split at h
  · simp at h
  obtain ⟨_, _, _, h⟩ := run_bind_eq_ok.1 h
  simp at h

theorem block_sound (hg : g.Sound) : (block g).Gives Stmt.IsBlock := by
  intro c c' s hc h
  unfold block at h
  obtain ⟨hopen, h⟩ := run_eatMark_bind_eq_ok.1 h
  obtain ⟨done, c₁, hloop, h⟩ := run_bind_eq_ok.1 h
  obtain ⟨hclose, h⟩ := run_eatMark_bind_eq_ok.1 h
  obtain ⟨rfl, rfl⟩ := run_pure_eq_ok.1 h
  obtain ⟨c₂, hwf, hspells, hdecline⟩ :=
    statements_sound hg.statement oneMoreInBlock_eq_some hc.advance hloop
  obtain rfl := oneMoreInBlock_eq_none hdecline
  rw [c.setting_advance] at hwf
  refine ⟨trivial, ?_, .cons hopen (hspells.append (.single hclose))⟩
  exact Stmt.allWellFormed_iff.2 (by simpa using hwf)

theorem alternative_sound (hg : g.Sound) : (alternative g).Gives Stmt.IsAlternative := by
  intro c c' s hc h
  unfold alternative at h
  rw [run_bind_of_ok (run_seesKeyword rfl)] at h
  split at h
  · exact hg.conditional hc h
  · exact (block_sound hg).isAlternative hc h

theorem conditional_sound (hg : g.Sound) : (conditional g).Gives Stmt.IsAlternative := by
  intro c c' s hc h
  unfold conditional at h
  obtain ⟨hkeyword, h⟩ := (run_eatKeyword_bind_eq_ok rfl).1 h
  obtain ⟨condition, c₁, hcondition, h⟩ := run_bind_eq_ok.1 h
  obtain ⟨hwf, -, hspells, -⟩ := expression_sound hg hc.advance hcondition
  obtain ⟨thenBranch, c₂, hthen, h⟩ := run_bind_eq_ok.1 h
  have hc₁ := hspells.closed hc.advance
  obtain ⟨hblock, hwf', hspells'⟩ := block_sound hg hc₁ hthen
  have hc₂ := hspells'.closed hc₁
  have hsetting₁ : c₁.setting = c.setting := hspells.setting_eq.trans c.setting_advance
  have hsetting₂ : c₂.setting = c.setting := hspells'.setting_eq.trans hsetting₁
  rw [hsetting₁] at hwf'
  rw [run_bind_of_ok (run_seesKeyword rfl)] at h
  split at h
  · rename_i helse
    rw [decide_eq_true_iff] at helse
    rw [run_bind_of_ok run_advance] at h
    obtain ⟨s', c₃, halternative, h⟩ := run_bind_eq_ok.1 h
    rw [run_pure_bind] at h
    obtain ⟨rfl, rfl⟩ := run_pure_eq_ok.1 h
    obtain ⟨hshape, hwf'', hspells''⟩ := alternative_sound hg hc₂.advance halternative
    rw [c₂.setting_advance, hsetting₂] at hwf''
    refine ⟨trivial, ⟨hwf, hblock, hwf', hshape, hwf''⟩, .cons hkeyword ?_⟩
    exact hspells.append (hspells'.append (.cons helse hspells''))
  · rw [run_pure_bind] at h
    obtain ⟨rfl, rfl⟩ := run_pure_eq_ok.1 h
    refine ⟨trivial, ⟨hwf, hblock, hwf', trivial⟩, .cons hkeyword ?_⟩
    simpa [Stmt.spelledElse] using hspells.append hspells'

theorem insideLoop_sound {r : Reading Stmt} {shape : Stmt → Prop} (hr : r.Gives shape)
    {c c' : Cursor} {s : Stmt} (hc : c.Closed) (h : (insideLoop r).run c = .ok s c') :
    shape s ∧ s.WellFormed c.setting.loopBody ∧ c.Spells s.spelled c' := by
  obtain ⟨c₁, hread, rfl⟩ := run_surrounded_eq_ok.1 h
  have hc₁ : (c.withCounts (c.loops + 1) c.functions).Closed := hc
  obtain ⟨hshape, hwf, hspells⟩ := hr hc₁ hread
  have hsetting : (c.withCounts (c.loops + 1) c.functions).setting = c.setting.loopBody := rfl
  exact ⟨hshape, hsetting ▸ hwf, .of_entered Cursor.takesBack_loop hspells⟩

theorem insideFunction_sound {r : Reading Stmt} {shape : Stmt → Prop} (hr : r.Gives shape)
    {c c' : Cursor} {s : Stmt} (hc : c.Closed) (h : (insideFunction r).run c = .ok s c') :
    shape s ∧ s.WellFormed .functionBody ∧ c.Spells s.spelled c' := by
  obtain ⟨c₁, hread, rfl⟩ := run_surrounded_eq_ok.1 h
  have hc₁ : (c.withCounts 0 (c.functions + 1)).Closed := hc
  obtain ⟨hshape, hwf, hspells⟩ := hr hc₁ hread
  have hsetting : (c.withCounts 0 (c.functions + 1)).setting = .functionBody := rfl
  exact ⟨hshape, hsetting ▸ hwf, .of_entered Cursor.takesBack_function hspells⟩

theorem loop_sound (hg : g.Sound) : (loop g).Gives fun _ => True := by
  intro c c' s hc h
  unfold loop at h
  obtain ⟨hkeyword, h⟩ := (run_eatKeyword_bind_eq_ok rfl).1 h
  obtain ⟨condition, c₁, hcondition, h⟩ := run_bind_eq_ok.1 h
  obtain ⟨hwf, -, hspells, -⟩ := expression_sound hg hc.advance hcondition
  obtain ⟨body, c₂, hbody, h⟩ := run_bind_eq_ok.1 h
  obtain ⟨rfl, rfl⟩ := run_pure_eq_ok.1 h
  obtain ⟨hblock, hwf', hspells'⟩ := insideLoop_sound (block_sound hg) (hspells.closed hc.advance)
    hbody
  rw [hspells.setting_eq, c.setting_advance] at hwf'
  exact ⟨trivial, ⟨hwf, hblock, hwf'⟩, .cons hkeyword (hspells.append hspells')⟩

/-! ## Functions -/

/-- A parameter that `parameter` reads is none of those `done` before it. -/
theorem parameter_sound {name p : String} {done : List String} {c c' : Cursor} (hdone : done.Nodup)
    (h : (parameter name done).run c = .ok p c') :
    (p :: done).Nodup ∧ c.Spells [.name p] c' := by
  unfold parameter at h
  obtain ⟨t, c₁, htake, h⟩ := run_bind_eq_ok.1 h
  obtain ⟨hname, rfl, rfl⟩ := run_takeName_eq_ok.1 htake
  split at h
  · rw [run_refuseAt_bind] at h
    simp at h
  · rename_i hfresh
    obtain ⟨rfl, rfl⟩ := run_pure_eq_ok.1 h
    exact ⟨by simpa [hdone] using hfresh, .single hname⟩

theorem parameters_sound {name : String} {c c' : Cursor} {names : List String} (hc : c.Closed)
    (h : (parameters name).run c = .ok names c') :
    names.Nodup ∧ c.Spells (commaSeparated (names.map fun p => [.name p])) c' := by
  obtain ⟨hnodup, hspells⟩ := elements_sound (fun p => [.name p]) (I := List.Nodup) List.nodup_nil
    (fun _ hdone h => parameter_sound hdone h) hc h
  exact ⟨List.nodup_reverse.1 hnodup, hspells⟩

theorem function_sound (hg : g.Sound) : (function g).Gives fun _ => True := by
  intro c c' s hc h
  unfold function at h
  obtain ⟨hkeyword, h⟩ := (run_eatKeyword_bind_eq_ok rfl).1 h
  rw [run_bind_of_ok run_checkIdentifier] at h
  split at h
  · simp at h
  rename_i hname
  simp only [Bool.not_eq_true', decide_eq_false_iff_not, not_not] at hname
  rw [run_bind_of_ok run_advance] at h
  obtain ⟨hopen, h⟩ := run_eatMark_bind_eq_ok.1 h
  obtain ⟨names, c₂, hnames, h⟩ := run_bind_eq_ok.1 h
  have hc₁ := hc.advance.advance.advance
  obtain ⟨hnodup, hspells⟩ := parameters_sound hc₁ hnames
  obtain ⟨hclose, h⟩ := run_eatMark_bind_eq_ok.1 h
  obtain ⟨body, c₃, hbody, h⟩ := run_bind_eq_ok.1 h
  obtain ⟨rfl, rfl⟩ := run_pure_eq_ok.1 h
  obtain ⟨hblock, hwf, hspells'⟩ := insideFunction_sound (block_sound hg)
    (hspells.closed hc₁).advance hbody
  refine ⟨trivial, ⟨hnodup, hblock, hwf⟩, .cons hkeyword (.cons hname (.cons hopen ?_))⟩
  exact hspells.append (.cons hclose hspells')

/-! ## Statements and programs -/

theorem statement_sound (hg : g.Sound) : (statement g).Gives fun _ => True := by
  intro c c' s hc h
  unfold statement at h
  rw [run_bind_of_ok run_current] at h
  split at h
  · rename_i hkind
    unfold keywordStatement at h
    split at h
    · exact declaration_sound hg hc h
    · exact function_sound hg hc h
    · exact printStatement_sound hg hc h
    · exact ⟨trivial, (conditional_sound hg hc h).2⟩
    · exact loop_sound hg hc h
    · rename_i hlexeme
      exact ⟨trivial, result_sound hg hc (Token.word?_of_keyword hkind hlexeme rfl) h⟩
    · rename_i hlexeme
      exact ⟨trivial, jump_sound .leave (Token.word?_of_keyword hkind hlexeme rfl) h⟩
    · rename_i hlexeme
      exact ⟨trivial, jump_sound .again (Token.word?_of_keyword hkind hlexeme rfl) h⟩
    · exact expressionStatement_sound hg hc h
  · split at h
    · exact ⟨trivial, (block_sound hg hc h).2⟩
    · exact expressionStatement_sound hg hc h

/-- The parts that may be nested are read soundly, for every `depth`. -/
theorem nested_sound (depth : Nat) : (nested depth).Sound := by
  induction depth with
  | zero =>
    -- without room for a level nothing is read
    constructor <;> intro c c' s _ h <;> exact nomatch h
  | succ depth ih =>
    exact {
      expression := expression_sound ih
      operand := unary_sound ih.expression ih.operand
      statement := statement_sound ih
      conditional := conditional_sound ih }

theorem oneMoreInProgram_eq_some {done done' : List Stmt} {c c' : Cursor}
    (h : (oneMoreInProgram g done).run c = .ok (some done') c') :
    ∃ s, (statement g).run c = .ok s c' ∧ done' = s :: done := by
  unfold oneMoreInProgram at h
  rw [run_bind_of_ok run_current] at h
  split at h
  · simp at h
  obtain ⟨s, c₁, hs, h⟩ := run_bind_eq_ok.1 h
  obtain ⟨hsome, rfl⟩ := run_pure_eq_ok.1 h
  cases hsome
  exact ⟨s, hs, rfl⟩

/-- The statements of a program come to their end at an end of input only: there `oneMoreInProgram`
    declines. -/
theorem oneMoreInProgram_eq_none {done : List Stmt} {c c' : Cursor}
    (h : (oneMoreInProgram g done).run c = .ok none c') : c' = c ∧ c.current.isEnd = true := by
  unfold oneMoreInProgram at h
  rw [run_bind_of_ok run_current] at h
  split at h
  · exact ⟨(run_pure_eq_ok.1 h).2.symm, by assumption⟩
  obtain ⟨_, _, _, h⟩ := run_bind_eq_ok.1 h
  simp at h

theorem program_sound (hg : g.Sound) {c c' : Cursor} {p : Program} (hc : c.Closed)
    (hsetting : c.setting = .outermost) (h : (program g).run c = .ok p c') :
    p.WellFormed ∧ ∃ c₁, c.Spells p.spelled c₁ ∧ c₁.current.isEnd = true := by
  unfold program at h
  obtain ⟨done, c₁, hloop, h⟩ := run_bind_eq_ok.1 h
  obtain ⟨t, c₂, htake, h⟩ := run_bind_eq_ok.1 h
  obtain ⟨rfl, rfl⟩ := run_pure_eq_ok.1 h
  obtain ⟨c₃, hwf, hspells, hdecline⟩ :=
    statements_sound (statement_sound hg) oneMoreInProgram_eq_some hc hloop
  rw [hsetting] at hwf
  refine ⟨by simpa [Program.WellFormed] using hwf, c₃, hspells, ?_⟩
  exact (oneMoreInProgram_eq_none hdecline).2

end Grammar

/-! ## Sequences of tokens -/

namespace Program

variable {depth : Nat} {tokens : List Token} {p : Program}

theorem exists_run_of_ofTokens (h : ofTokens depth tokens = .ok p) :
    ∃ c c' : Cursor, c.Closed ∧ c.setting = .outermost ∧ c.current :: c.ahead = tokens ∧
      (Grammar.program (Grammar.nested depth)).run c = .ok p c' := by
  unfold ofTokens Cursor.ofTokens? at h
  split at h
  · simp at h
  rename_i c hc
  split at hc
  · simp at hc
  rename_i t rest
  split at hc
  swap
  · simp at hc
  rename_i hend
  cases hc
  split at h
  · rename_i p' c' hrun
    cases h
    refine ⟨_, c', ?_, rfl, rfl, hrun⟩
    simpa [Cursor.Closed, List.getLast_eq_getLastD] using hend
  · simp at h

/-- A program that `ofTokens` reads is one of the grammar. -/
theorem wellFormed_of_ofTokens (h : ofTokens depth tokens = .ok p) : p.WellFormed := by
  obtain ⟨c, c', hc, hsetting, -, hrun⟩ := exists_run_of_ofTokens h
  exact (Grammar.program_sound (Grammar.nested_sound depth) hc hsetting hrun).1

/-- Nothing outside the grammar is read, and nothing is lost on the way: if `ofTokens` reads `p`,
    the tokens before the first end of input are the `spelling` of `p`, which is one of the grammar.
    The literals among the tokens are `carried` with their values. -/
theorem ofTokens_sound (carried : ∀ t ∈ tokens, t.Carries) (h : ofTokens depth tokens = .ok p) :
    p.WellFormed ∧ ∃ spelling rest last, tokens = spelling ++ last :: rest ∧
      (∀ t ∈ spelling, t.isEnd = false) ∧ last.isEnd = true ∧
      Token.WriteAll spelling p.spelled := by
  refine ⟨wellFormed_of_ofTokens h, ?_⟩
  obtain ⟨c, c', hc, hsetting, rfl, hrun⟩ := exists_run_of_ofTokens h
  obtain ⟨-, c₁, hspells, hend⟩ :=
    Grammar.program_sound (Grammar.nested_sound depth) hc hsetting hrun
  obtain ⟨taken, htokens, hwords⟩ := hspells.exists_tokens hc
  have hcarried : ∀ t ∈ taken, t.Carries :=
    fun t ht => carried t (htokens ▸ List.mem_append_left _ ht)
  have hwrites := Token.writeAll_of_map_word? hcarried hwords
  exact ⟨taken, c₁.ahead, c₁.current, htokens, fun t ht => Token.isEnd_of_mem_writeAll hwrites ht,
    hend, hwrites⟩

/-- The loop `while a`, whose body prints a text and leaves the loop. -/
theorem ofTokens_sound_of_loop :
    let tokens : List Token :=
      [.of .keyword "while" .nil ⟨1, 1⟩, .of .identifier "a" .nil ⟨1, 7⟩,
       .of .punctuation Grammar.openBrace .nil ⟨1, 9⟩, .of .keyword "print" .nil ⟨1, 11⟩,
       .of .string "\"x\"" (.str "x") ⟨1, 17⟩, .of .punctuation ";" .nil ⟨1, 20⟩,
       .of .keyword "break" .nil ⟨1, 22⟩, .of .punctuation ";" .nil ⟨1, 27⟩,
       .of .punctuation Grammar.closeBrace .nil ⟨1, 29⟩, .endAt ⟨1, 30⟩]
    let p : Program :=
      [.loop (.identifier "a" ⟨1, 7⟩)
        (.block [.print (.literal (.str "x") ⟨1, 17⟩) ⟨1, 11⟩, .jump .leave ⟨1, 22⟩] ⟨1, 9⟩) ⟨1, 1⟩]
    ofTokens 2 tokens = .ok p ∧ p.WellFormed ∧
      ∃ spelling rest last, tokens = spelling ++ last :: rest ∧
        (∀ t ∈ spelling, t.isEnd = false) ∧ last.isEnd = true ∧
        Token.WriteAll spelling p.spelled := by
  intro tokens p
  have hread : ofTokens 2 tokens = .ok p := by rfl
  have carried : ∀ t ∈ tokens, t.Carries := by
    simp [tokens, Token.Carries, Token.of, Token.endAt]
  exact ⟨hread, ofTokens_sound carried hread⟩

end Program

end Scripting
