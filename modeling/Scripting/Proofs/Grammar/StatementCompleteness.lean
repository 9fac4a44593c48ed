import Mathlib.Data.List.Nodup
import Scripting.Proofs.Grammar.ExpressionCompleteness

set_option autoImplicit false

/-! # The programs of the grammar are read

Every program of the grammar is read back by `Program.ofTokens` from tokens that spell it, up to
positions. As with expressions, each reading must stop where its statement ends. Only a conditional
without an alternative can be cut off too late, by an `else` behind it (`Stmt.EndsBefore`), and no
statement begins with that. -/

namespace Scripting

/-! ## Levels of nesting -/

/-- How many further levels of nesting an expression takes up where one may be left out. -/
def Expr.nestingOption : Option Expr → Nat
  | none => 0
  | some e => e.nesting

mutual

/-- How many further levels of `nested` a statement takes up. -/
def Stmt.nesting : Stmt → Nat
  | .expression e _ => e.nesting
  | .print e _ => e.nesting
  | .declaration _ initializer _ => Expr.nestingOption initializer
  | .block statements _ => Stmt.nestingEach statements
  | .conditional condition thenBranch elseBranch _ =>
    max condition.nesting (max thenBranch.nesting (Stmt.nestingElse elseBranch))
  | .loop condition body _ => max condition.nesting body.nesting
  | .function _ _ body _ => body.nesting
  | .result value _ => Expr.nestingOption value
  | .jump _ _ => 0
  | .stray _ _ => 0

/-- How many further levels of nesting the statements of a body take up. -/
def Stmt.nestingEach : List Stmt → Nat
  | [] => 0
  | s :: rest => max (s.nesting + 1) (Stmt.nestingEach rest)

/-- How many further levels of nesting an alternative takes up. -/
def Stmt.nestingElse : Option Stmt → Nat
  | none => 0
  | some s => s.nesting + 1

end

theorem Stmt.nesting_lt_of_mem {s : Stmt} {ss : List Stmt} (h : s ∈ ss) :
    s.nesting < Stmt.nestingEach ss := by
  induction ss with
  | nil => simp at h
  | cons first rest ih =>
    simp only [nestingEach]
    rcases List.mem_cons.1 h with rfl | h
    · omega
    · have := ih h
      omega

/-- How many levels of `nested` a program takes up. -/
def Program.nesting (p : Program) : Nat :=
  Stmt.nestingEach p

/-! ## Readings that give a statement back -/

/-- Whether a statement ends before the token under the cursor. A conditional without an alternative
    would take an `else` for its own. -/
def Stmt.EndsBefore : Stmt → Cursor → Prop
  | .conditional _ _ _ _, c => c.current.word? ≠ some (.keyword "else")
  | _, _ => True

theorem Stmt.endsBefore_of_ne {s : Stmt} {c : Cursor}
    (h : c.current.word? ≠ some (.keyword "else")) : s.EndsBefore c := by
  cases s <;> first | exact h | trivial

theorem Stmt.IsBlock.endsBefore {s : Stmt} (h : s.IsBlock) (c : Cursor) : s.EndsBefore c := by
  cases s <;> trivial

/-- A block begins with its brace. -/
theorem Stmt.IsBlock.exists_spelled_eq_cons {s : Stmt} (h : s.IsBlock) :
    ∃ words, s.spelled = .mark Grammar.openBrace :: words := by
  cases s <;> first | exact ⟨_, rfl⟩ | exact h.elim

/-- Whether the reading `r` gives the statement `s` back in the setting `w` from tokens that spell
    it, if the statement `EndsBefore` what is behind them. -/
def Reading.Recovers (r : Reading Stmt) (w : Setting) (s : Stmt) : Prop :=
  ∀ ⦃c c' : Cursor⦄, c.Closed → c.setting = w → c.Spells s.spelled c' → s.EndsBefore c' →
    ∃ s', r.run c = .ok s' c' ∧ s'.unplaced = s.unplaced

namespace Grammar

open Reading

variable {g : Nested} {w : Setting} {e : Expr}

/-! ## Statements without bodies -/

theorem expressionStatement_recovers (h : (expression g).Restores 0 e) (position : Position) :
    (expressionStatement g).Recovers w (.expression e position) := by
  intro c c' hc _ hspells _
  obtain ⟨c₁, he, hlast⟩ := hspells.of_append
  obtain ⟨hend, rfl⟩ := hlast.eq_of_single
  obtain ⟨e', hread, hsame⟩ := h hc he (Cursor.not_extends hend rfl 0)
  refine ⟨.expression e' c.current.position, ?_, by simp [Stmt.unplaced, hsame]⟩
  unfold expressionStatement
  rw [run_bind_of_ok run_current, run_bind_of_ok hread, run_bind_of_ok (run_eatMark hend)]
  rfl

theorem printStatement_recovers (h : (expression g).Restores 0 e) (position : Position) :
    (printStatement g).Recovers w (.print e position) := by
  intro c c' hc _ hspells _
  obtain ⟨hkeyword, hbehind⟩ := hspells.of_cons
  obtain ⟨c₁, he, hlast⟩ := hbehind.of_append
  obtain ⟨hend, rfl⟩ := hlast.eq_of_single
  obtain ⟨e', hread, hsame⟩ := h hc.advance he (Cursor.not_extends hend rfl 0)
  refine ⟨.print e' c.current.position, ?_, by simp [Stmt.unplaced, hsame]⟩
  unfold printStatement
  rw [run_bind_of_ok (run_eatKeyword rfl hkeyword), run_bind_of_ok hread,
    run_bind_of_ok (run_eatMark hend)]
  rfl

theorem declaration_recovers (name : String) {initializer : Option Expr}
    (h : ∀ e ∈ initializer, (expression g).Restores 0 e) (position : Position) :
    (declaration g).Recovers w (.declaration name initializer position) := by
  intro c c' hc _ hspells _
  obtain ⟨hkeyword, hbehind⟩ := hspells.of_cons
  obtain ⟨hname, hrest⟩ := hbehind.of_cons
  obtain ⟨-, rfl⟩ := Token.word?_eq_name_iff.1 hname
  obtain ⟨c₁, hinitializer, hlast⟩ := hrest.of_append
  obtain ⟨hend, rfl⟩ := hlast.eq_of_single
  unfold declaration
  rw [run_bind_of_ok (run_eatKeyword rfl hkeyword), run_bind_of_ok run_checkIdentifier,
    if_neg (by simp [hname]), run_bind_of_ok run_advance, run_bind_of_ok (run_seesOperator _)]
  cases initializer with
  | none =>
    obtain rfl := hinitializer.eq_of_nil
    refine ⟨.declaration c.advance.current.lexeme none c.current.position, ?_, rfl⟩
    rw [if_neg (by simp [hend]), run_pure_bind, run_bind_of_ok (run_eatMark hend)]
    rfl
  | some e =>
    obtain ⟨hequals, he⟩ := hinitializer.of_cons
    obtain ⟨e', hread, hsame⟩ :=
      h e rfl hc.advance.advance.advance he (Cursor.not_extends hend rfl 0)
    refine ⟨.declaration c.advance.current.lexeme (some e') c.current.position, ?_,
      by simp [Stmt.unplaced, hsame]⟩
    rw [if_pos (by simp [hequals]), run_bind_of_ok run_advance, run_bind_of_ok hread, run_pure_bind,
      run_bind_of_ok (run_eatMark hend)]
    rfl

theorem jump_recovers (which : Jump) (hw : w.inLoop = true) (position : Position) :
    (jump which).Recovers w (.jump which position) := by
  intro c c' hc hsetting hspells _
  obtain ⟨hkeyword, hlast⟩ := hspells.of_cons
  obtain ⟨hend, rfl⟩ := hlast.eq_of_single
  have hloops : c.loops ≠ 0 := by simpa [← hsetting, Cursor.setting] using hw
  refine ⟨.jump which c.current.position, ?_, rfl⟩
  unfold jump
  rw [run_bind_of_ok run_current, run_bind_of_ok run_get, if_neg hloops, run_bind_of_ok run_advance,
    run_bind_of_ok (run_eatMark hend)]
  rfl

theorem result_recovers (hw : w.inFunction = true) {value : Option Expr}
    (hwf : ∀ e ∈ value, e.WellFormed) (h : ∀ e ∈ value, (expression g).Restores 0 e)
    (position : Position) : (result g).Recovers w (.result value position) := by
  intro c c' hc hsetting hspells _
  obtain ⟨hkeyword, hbehind⟩ := hspells.of_cons
  obtain ⟨c₁, hvalue, hlast⟩ := hbehind.of_append
  obtain ⟨hend, rfl⟩ := hlast.eq_of_single
  have hfunctions : c.functions ≠ 0 := by simpa [← hsetting, Cursor.setting] using hw
  unfold result
  rw [run_bind_of_ok run_current, run_bind_of_ok run_get, if_neg hfunctions,
    run_bind_of_ok run_advance, run_bind_of_ok (run_seesMark _)]
  cases value with
  | none =>
    obtain rfl := hvalue.eq_of_nil
    refine ⟨.result none c.current.position, ?_, rfl⟩
    rw [if_pos (by simp [hend]), run_pure_bind, run_bind_of_ok (run_eatMark hend)]
    rfl
  | some e =>
    obtain ⟨first, words, hfirst, hopens⟩ := Expr.exists_spelled_eq_cons (hwf e rfl)
    have hopen : c.advance.current.word? = some first := by
      rw [Expr.spelledOption, hfirst] at hvalue
      exact hvalue.of_cons.1
    -- a return without a value is told by its semicolon, with which no expression begins
    have hother : first ≠ .mark ";" := by rintro rfl; simp [Word.OpensExpression] at hopens
    obtain ⟨e', hread, hsame⟩ := h e rfl hc.advance hvalue (Cursor.not_extends hend rfl 0)
    refine ⟨.result (some e') c.current.position, ?_, by simp [Stmt.unplaced, hsame]⟩
    rw [if_neg (by simpa [hopen] using hother), run_bind_of_ok hread, run_pure_bind,
      run_bind_of_ok (run_eatMark hend)]
    rfl

/-! ## Bodies -/

/-- The statements `ss` one after the other are read one by one. Behind each of them comes the first
    word of another one, or what stands behind them all. -/
theorem exists_accepts_statements {r : Reading Stmt}
    {step : List Stmt → Reading (Option (List Stmt))}
    (hstep : ∀ {done : List Stmt} {c c' : Cursor} {s : Stmt} {first : Word},
      c.current.word? = some first → first.OpensStatement → r.run c = .ok s c' →
      (step done).run c = .ok (some (s :: done)) c')
    {ss : List Stmt} (hwf : ∀ s ∈ ss, s.WellFormed w) (hss : ∀ s ∈ ss, r.Recovers w s)
    (done : List Stmt) {c c' : Cursor} (hc : c.Closed) (hsetting : c.setting = w)
    (hspells : c.Spells (Stmt.spelledAll ss) c')
    (hend : c'.current.word? ≠ some (.keyword "else")) :
    ∃ ss', Relation.ReflTransGen (Accepts step) (done, c) (ss'.reverse ++ done, c') ∧
      Stmt.unplacedAll ss' = Stmt.unplacedAll ss := by
  induction ss generalizing done c with
  | nil =>
    obtain rfl := hspells.eq_of_nil
    exact ⟨[], .refl, rfl⟩
  | cons s rest ih =>
    obtain ⟨c₁, hs, hrest⟩ := hspells.of_append
    obtain ⟨hwfFirst, hwfRest⟩ := List.forall_mem_cons.1 hwf
    obtain ⟨hfirst, hmore⟩ := List.forall_mem_cons.1 hss
    obtain ⟨first, words, hopens, hopen⟩ := Stmt.exists_spelled_eq_cons hwfFirst
    -- no statement begins with `else`, so even a conditional ends here
    have hnext : c₁.current.word? ≠ some (.keyword "else") := by
      cases rest with
      | nil => exact hrest.eq_of_nil ▸ hend
      | cons s' rest =>
        obtain ⟨first', words', hopens', hopen'⟩ :=
          Stmt.exists_spelled_eq_cons (hwfRest s' List.mem_cons_self)
        rw [Stmt.spelledAll, hopens'] at hrest
        rw [hrest.of_cons.1]
        intro helse
        rw [Option.some.injEq] at helse
        simp [helse, Word.OpensStatement] at hopen'
    obtain ⟨s', hread, hsame⟩ := hfirst hc hsetting hs (Stmt.endsBefore_of_ne hnext)
    have hsetting₁ : c₁.setting = w := hs.setting_eq.trans hsetting
    obtain ⟨ss', hsteps, hsame'⟩ :=
      ih hwfRest hmore (s' :: done) (hs.closed hc) hsetting₁ hrest
    have hstep' : (step done).run c = .ok (some (s' :: done)) c₁ :=
      hstep (hopens ▸ hs).of_cons.1 hopen hread
    have haccept : Accepts step (done, c) (s' :: done, c₁) := by
      rw [hopens] at hs
      exact ⟨hstep', hs.length_ahead_lt hc⟩
    exact ⟨s' :: ss', .head haccept (by simpa using hsteps),
      by simp [Stmt.unplacedAll, hsame, hsame']⟩

theorem block_recovers {ss : List Stmt} (hwf : Stmt.AllWellFormed w ss)
    (h : ∀ s ∈ ss, g.statement.Recovers w s) (position : Position) :
    (block g).Recovers w (.block ss position) := by
  intro c c' hc hsetting hspells _
  obtain ⟨hopen, hbehind⟩ := hspells.of_cons
  obtain ⟨c₁, hss, hlast⟩ := hbehind.of_append
  obtain ⟨hclose, rfl⟩ := hlast.eq_of_single
  have hstep : ∀ {done : List Stmt} {c c' : Cursor} {s : Stmt} {first : Word},
      c.current.word? = some first → first.OpensStatement → g.statement.run c = .ok s c' →
      (oneMoreInBlock g done).run c = .ok (some (s :: done)) c' := by
    intro done c c' s first hfirst hopens hread
    have hother : c.current.word? ≠ some (.mark closeBrace) := by
      rw [hfirst]
      intro hbrace
      rw [Option.some.injEq] at hbrace
      simp [hbrace, Word.OpensStatement, closeBrace, openBrace] at hopens
    unfold oneMoreInBlock
    rw [run_bind_of_ok (run_seesMark _), if_neg (by simpa using hother), run_bind_of_ok run_current,
      if_neg (by simp [Token.isEnd_eq_false hfirst]), run_bind_of_ok hread]
    rfl
  obtain ⟨ss', hsteps, hsame⟩ := exists_accepts_statements hstep
    (Stmt.allWellFormed_iff.1 hwf) h [] hc.advance (c.setting_advance.trans hsetting) hss
    (by simp [hclose])
  have hdecline : (oneMoreInBlock g (ss'.reverse ++ [])).run c₁ = .ok none c₁ := by
    unfold oneMoreInBlock
    rw [run_bind_of_ok (run_seesMark _), if_pos (by simp [hclose])]
    rfl
  refine ⟨.block ss' c.current.position, ?_, by simp [Stmt.unplaced, hsame]⟩
  unfold block
  rw [run_bind_of_ok (run_eatMark hopen),
    run_bind_of_ok (run_repeatFrom_of_accepts hsteps hdecline), run_bind_of_ok (run_eatMark hclose),
    run_pure_eq_ok]
  simp

theorem conditional_recovers {condition : Expr} (h : (expression g).Restores 0 condition)
    {thenBranch : Stmt} (hblock : thenBranch.IsBlock) (hthen : (block g).Recovers w thenBranch)
    {elseBranch : Option Stmt} (helse : ∀ s ∈ elseBranch, (alternative g).Recovers w s)
    (position : Position) :
    (conditional g).Recovers w (.conditional condition thenBranch elseBranch position) := by
  intro c c' hc hsetting hspells hends
  have hnext : c'.current.word? ≠ some (.keyword "else") := hends
  obtain ⟨hkeyword, hbehind⟩ := hspells.of_cons
  obtain ⟨c₁, hcondition, hrest⟩ := hbehind.of_append
  obtain ⟨c₂, hbranch, helseSpells⟩ := hrest.of_append
  obtain ⟨words, hbrace⟩ := hblock.exists_spelled_eq_cons
  have hc₁ := hcondition.closed hc.advance
  have hc₂ := hbranch.closed hc₁
  have hsetting₁ : c₁.setting = w :=
    (hcondition.setting_eq.trans c.setting_advance).trans hsetting
  have hsetting₂ : c₂.setting = w := hbranch.setting_eq.trans hsetting₁
  obtain ⟨condition', hread, hsame⟩ :=
    h hc.advance hcondition (Cursor.not_extends (hbrace ▸ hbranch).of_cons.1 rfl 0)
  obtain ⟨thenBranch', hread', hsame'⟩ := hthen hc₁ hsetting₁ hbranch (hblock.endsBefore c₂)
  unfold conditional
  rw [run_bind_of_ok (run_eatKeyword rfl hkeyword), run_bind_of_ok hread, run_bind_of_ok hread',
    run_bind_of_ok (run_seesKeyword rfl)]
  cases elseBranch with
  | none =>
    obtain rfl := helseSpells.eq_of_nil
    refine ⟨.conditional condition' thenBranch' none c.current.position, ?_,
      by simp [Stmt.unplaced, Stmt.unplacedOption, hsame, hsame']⟩
    rw [if_neg (by simpa using hnext), run_pure_bind]
    rfl
  | some s =>
    obtain ⟨helseKeyword, hs⟩ := helseSpells.of_cons
    obtain ⟨s', hread'', hsame''⟩ :=
      helse s rfl hc₂.advance (c₂.setting_advance.trans hsetting₂) hs (Stmt.endsBefore_of_ne hnext)
    refine ⟨.conditional condition' thenBranch' (some s') c.current.position, ?_,
      by simp [Stmt.unplaced, Stmt.unplacedOption, hsame, hsame', hsame'']⟩
    rw [if_pos (by simp [helseKeyword]), run_bind_of_ok run_advance, run_bind_of_ok hread'',
      run_pure_bind]
    rfl

/-- A body is read with other counts around it, which `enter` makes and `leave` takes back, and
    which do not change the words. -/
theorem surrounded_recovers {enter : Cursor → Cursor} {leave : Cursor → Cursor → Cursor}
    {r : Reading Stmt} {w' : Setting} {s : Stmt} (htakes : Cursor.TakesBack enter leave)
    (hsetting : ∀ c : Cursor, c.setting = w → (enter c).setting = w') (hblock : s.IsBlock)
    (h : r.Recovers w' s) : (surrounded enter leave r).Recovers w s := by
  intro c c' hc hw hspells _
  obtain ⟨c₁, hspells', hleave⟩ := hspells.exists_entered htakes
  have hc₁ : (enter c).Closed := by
    obtain ⟨loops, functions, henter, -⟩ := htakes c
    rw [henter]
    exact hc
  obtain ⟨s', hread, hsame⟩ := h hc₁ (hsetting c hw) hspells' (hblock.endsBefore _)
  exact ⟨s', run_surrounded_eq_ok.2 ⟨c₁, hread, hleave.symm⟩, hsame⟩

theorem insideLoop_recovers {r : Reading Stmt} {s : Stmt} (hblock : s.IsBlock)
    (h : r.Recovers w.loopBody s) : (insideLoop r).Recovers w s := by
  have hsetting : ∀ c : Cursor, c.setting = w → c.enterLoop.setting = w.loopBody := by
    rintro c rfl; rfl
  exact surrounded_recovers Cursor.takesBack_loop hsetting hblock h

theorem insideFunction_recovers {r : Reading Stmt} {s : Stmt} (hblock : s.IsBlock)
    (h : r.Recovers .functionBody s) : (insideFunction r).Recovers w s := by
  have hsetting : ∀ c : Cursor, c.setting = w → c.enterFunction.setting = .functionBody :=
    fun _ _ => rfl
  exact surrounded_recovers Cursor.takesBack_function hsetting hblock h

theorem loop_recovers {condition : Expr} (h : (expression g).Restores 0 condition) {body : Stmt}
    (hblock : body.IsBlock) (hbody : (block g).Recovers w.loopBody body) (position : Position) :
    (loop g).Recovers w (.loop condition body position) := by
  intro c c' hc hsetting hspells _
  obtain ⟨hkeyword, hbehind⟩ := hspells.of_cons
  obtain ⟨c₁, hcondition, hbodySpells⟩ := hbehind.of_append
  obtain ⟨words, hbrace⟩ := hblock.exists_spelled_eq_cons
  have hsetting₁ : c₁.setting = w :=
    (hcondition.setting_eq.trans c.setting_advance).trans hsetting
  obtain ⟨condition', hread, hsame⟩ :=
    h hc.advance hcondition (Cursor.not_extends (hbrace ▸ hbodySpells).of_cons.1 rfl 0)
  obtain ⟨body', hread', hsame'⟩ :=
    insideLoop_recovers hblock hbody (hcondition.closed hc.advance) hsetting₁ hbodySpells
      (hblock.endsBefore c')
  refine ⟨.loop condition' body' c.current.position, ?_, by simp [Stmt.unplaced, hsame, hsame']⟩
  unfold loop
  rw [run_bind_of_ok (run_eatKeyword rfl hkeyword), run_bind_of_ok hread, run_bind_of_ok hread']
  rfl

/-! ## Functions -/

theorem parameters_complete (name : String) {names : List String} (hnodup : names.Nodup)
    {c c' : Cursor} (hc : c.Closed)
    (hspells : c.Spells (commaSeparated (names.map fun p => [.name p])) c')
    (hend : c'.current.word? = some (.mark ")")) : (parameters name).run c = .ok names c' := by
  have hopens : ∀ p ∈ names, ∃ w words, [Word.name p] = w :: words ∧ w ≠ .mark ")" :=
    fun p _ => ⟨.name p, [], rfl, by simp⟩
  have heach : RestoresEach (parameter name) (fun p => [.name p]) Eq names := by
    intro done rest p read c c' hnames hread hc hspells _
    obtain ⟨hname, rfl⟩ := hspells.eq_of_single
    rw [List.forall₂_eq_eq_eq] at hread
    obtain ⟨-, rfl⟩ := Token.word?_eq_name_iff.1 hname
    rw [hnames, List.nodup_middle] at hnodup
    have hfresh : ¬ read.contains c.current.lexeme = true := by
      have hnew := (List.nodup_cons.1 hnodup).1
      simp only [List.mem_append, not_or] at hnew
      simp [hread, hnew.1]
    refine ⟨c.current.lexeme, ?_, rfl⟩
    unfold parameter
    rw [run_bind_of_ok (run_takeName_eq_ok.2 ⟨hname, rfl, rfl⟩), if_neg hfresh]
    rfl
  obtain ⟨bs, hread, hsame⟩ := elements_complete hopens heach hc hspells hend
  rw [List.forall₂_eq_eq_eq] at hsame
  exact hsame ▸ hread

theorem function_recovers (name : String) {names : List String} (hnodup : names.Nodup) {body : Stmt}
    (hblock : body.IsBlock) (hbody : (block g).Recovers .functionBody body) (position : Position) :
    (function g).Recovers w (.function name names body position) := by
  intro c c' hc hsetting hspells _
  obtain ⟨hkeyword, hspells₁⟩ := hspells.of_cons
  obtain ⟨hname, hspells₂⟩ := hspells₁.of_cons
  obtain ⟨hopen, hspells₃⟩ := hspells₂.of_cons
  obtain ⟨-, rfl⟩ := Token.word?_eq_name_iff.1 hname
  obtain ⟨c₁, hnames, hrest⟩ := hspells₃.of_append
  obtain ⟨hclose, hbodySpells⟩ := hrest.of_cons
  have hc₁ := hnames.closed hc.advance.advance.advance
  have hsetting₁ : c₁.advance.setting = w := by
    rw [c₁.setting_advance, hnames.setting_eq]
    simpa only [Cursor.setting_advance] using hsetting
  have hread := parameters_complete c.advance.current.lexeme hnodup hc.advance.advance.advance
    hnames hclose
  obtain ⟨body', hread', hsame⟩ :=
    insideFunction_recovers hblock hbody hc₁.advance hsetting₁ hbodySpells (hblock.endsBefore c')
  refine ⟨.function c.advance.current.lexeme names body' c.current.position, ?_,
    by simp [Stmt.unplaced, hsame]⟩
  unfold function
  rw [run_bind_of_ok (run_eatKeyword rfl hkeyword), run_bind_of_ok run_checkIdentifier,
    if_neg (by simp [hname]), run_bind_of_ok run_advance, run_bind_of_ok (run_eatMark hopen),
    run_bind_of_ok hread, run_bind_of_ok (run_eatMark hclose), run_bind_of_ok hread']
  rfl

/-! ## Statements -/

theorem run_statement_of_keyword {c : Cursor} {keyword : String}
    (h : c.current.word? = some (.keyword keyword)) :
    (statement g).run c = (keywordStatement g keyword).run c := by
  obtain ⟨hkind, rfl⟩ := Token.word?_eq_keyword h
  unfold statement
  rw [run_bind_of_ok run_current, if_pos hkind]

theorem run_statement_of_brace {c : Cursor} (h : c.current.word? = some (.mark openBrace)) :
    (statement g).run c = (block g).run c := by
  have hkind : c.current.kind ≠ .keyword := by
    intro hkind
    simp [Token.word?, literalValue?, hkind] at h
    cases hvalue : keywordValue? c.current.lexeme <;> simp [hvalue] at h
  unfold statement
  rw [run_bind_of_ok run_current, if_neg hkind, if_pos (by simp [Token.is_mark, h])]

/-- The keywords that begin a statement begin no expression, so `statement` reads an
    `expressionStatement`. -/
theorem run_statement_of_opensExpression {c : Cursor} {first : Word}
    (h : c.current.word? = some first) (hopens : first.OpensExpression) :
    (statement g).run c = (expressionStatement g).run c := by
  have hbrace : c.current.is .punctuation openBrace = false := by
    rw [Token.is_mark, decide_eq_false_iff_not, h, Option.some.injEq]
    rintro rfl
    simp [Word.OpensExpression, openBrace] at hopens
  unfold statement
  rw [run_bind_of_ok run_current]
  split
  · rename_i hkind
    -- of the keywords only the literals begin an expression
    cases hvalue : keywordValue? c.current.lexeme with
    | none =>
      simp only [Token.word?, literalValue?, hkind, hvalue, Option.some.injEq] at h
      subst h
      exact hopens.elim
    | some v =>
      rcases keywordValue?_cases hvalue with ⟨hlexeme, -⟩ | ⟨hlexeme, -⟩ | ⟨hlexeme, -⟩ <;>
        rw [hlexeme] <;> rfl
  · rw [if_neg (by simp [hbrace])]

/-- What reads the statement `s` in the setting `w`: the reading of statements, that of blocks if it
    is one, and that of alternatives if it may be one. -/
structure Recovered (depth : Nat) (w : Setting) (s : Stmt) : Prop where
  statement : (statement (nested depth)).Recovers w s
  block : s.IsBlock → (block (nested depth)).Recovers w s
  alternative : s.IsAlternative → (alternative (nested (depth + 1))).Recovers w s

/-- A statement that begins with a `keyword` and is no alternative is read by its own production,
    `keywordStatement`. -/
theorem Recovered.of_keyword {depth : Nat} {s : Stmt} {keyword : String} {words : List Word}
    (hspelled : s.spelled = .keyword keyword :: words) (hshape : ¬ s.IsAlternative)
    (h : (keywordStatement (nested depth) keyword).Recovers w s) : Recovered depth w s where
  statement c c' hc hsetting hspells hends := by
    rw [run_statement_of_keyword (hspelled ▸ hspells).of_cons.1]
    exact h hc hsetting hspells hends
  block hblock := (hshape (by cases s <;> trivial)).elim
  alternative halternative := (hshape halternative).elim

theorem Recovered.of_expression {depth : Nat} (hwf : e.WellFormed) {position : Position}
    (h : (expressionStatement (nested depth)).Recovers w (.expression e position)) :
    Recovered depth w (.expression e position) where
  statement c c' hc hsetting hspells hends := by
    obtain ⟨first, words, hfirst, hopens⟩ := Expr.exists_spelled_eq_cons hwf
    have hspells' := hspells
    rw [Stmt.spelled, hfirst] at hspells'
    rw [run_statement_of_opensExpression hspells'.of_cons.1 hopens]
    exact h hc hsetting hspells hends
  block hblock := hblock.elim
  alternative halternative := halternative.elim

theorem Recovered.of_block {depth : Nat} {ss : List Stmt} {position : Position}
    (h : ∀ depth' ≥ depth, (Grammar.block (nested depth')).Recovers w (.block ss position)) :
    Recovered depth w (.block ss position) where
  statement c c' hc hsetting hspells hends := by
    rw [run_statement_of_brace hspells.of_cons.1]
    exact h depth (Nat.le_refl _) hc hsetting hspells hends
  block _ := h depth (Nat.le_refl _)
  alternative _ c c' hc hsetting hspells hends := by
    have hbrace := hspells.of_cons.1
    unfold Grammar.alternative
    rw [run_bind_of_ok (run_seesKeyword rfl), if_neg (by simp [hbrace])]
    exact h (depth + 1) (Nat.le_succ _) hc hsetting hspells hends

theorem Recovered.of_conditional {depth : Nat} {condition : Expr} {thenBranch : Stmt}
    {elseBranch : Option Stmt} {position : Position}
    (h : (conditional (nested depth)).Recovers w
      (.conditional condition thenBranch elseBranch position)) :
    Recovered depth w (.conditional condition thenBranch elseBranch position) where
  statement c c' hc hsetting hspells hends := by
    rw [run_statement_of_keyword hspells.of_cons.1]
    exact h hc hsetting hspells hends
  block hblock := hblock.elim
  alternative _ c c' hc hsetting hspells hends := by
    have hkeyword := hspells.of_cons.1
    unfold Grammar.alternative
    rw [run_bind_of_ok (run_seesKeyword rfl), if_pos (by simp [hkeyword])]
    exact h hc hsetting hspells hends

mutual

/-- Every statement of the grammar is read back, if its `nesting` is at most `depth`. -/
theorem recovered_of_wellFormed : ∀ {s : Stmt} {w : Setting} {depth : Nat}, s.WellFormed w →
    s.nesting ≤ depth → Recovered depth w s
  | .expression e position, _, _, hwf, hdepth =>
    .of_expression hwf
      (expressionStatement_recovers (ladder_of_wellFormed hwf hdepth).whole position)
  | .print e position, _, _, hwf, hdepth =>
    .of_keyword rfl id (printStatement_recovers (ladder_of_wellFormed hwf hdepth).whole position)
  | .declaration name initializer position, _, depth, hwf, hdepth => by
    have hinitializer : ∀ e ∈ initializer, (expression (nested depth)).Restores 0 e := by
      rintro e rfl
      exact (ladder_of_wellFormed (hwf e rfl) hdepth).whole
    exact .of_keyword rfl id (declaration_recovers name hinitializer position)
  | .result value position, _, depth, hwf, hdepth => by
    obtain ⟨hw, hwf⟩ := hwf
    have hvalue : ∀ e ∈ value, (expression (nested depth)).Restores 0 e := by
      rintro e rfl
      exact (ladder_of_wellFormed (hwf e rfl) hdepth).whole
    exact .of_keyword rfl id (result_recovers hw hwf hvalue position)
  | .jump .leave position, _, _, hwf, _ =>
    .of_keyword rfl id (jump_recovers .leave hwf position)
  | .jump .again position, _, _, hwf, _ =>
    .of_keyword rfl id (jump_recovers .again hwf position)
  | .block ss position, w, depth, hwf, hdepth => by
    have hss : ∀ depth' ≥ depth, ∀ s ∈ ss, (nested depth').statement.Recovers w s :=
      fun depth' hle => statement_recovers_of_mem hwf (Nat.le_trans hdepth hle)
    exact .of_block fun depth' hle => block_recovers hwf (hss depth' hle) position
  | .conditional condition thenBranch elseBranch position, w, depth, hwf, hdepth => by
    obtain ⟨hcondition, hblock, hthen, helse⟩ := hwf
    simp only [Stmt.nesting] at hdepth
    have hread := (ladder_of_wellFormed hcondition (by omega : condition.nesting ≤ depth)).whole
    have hbranch := recovered_of_wellFormed hthen (by omega : thenBranch.nesting ≤ depth)
    have halternative :=
      alternative_recovers_of_mem helse (by omega : Stmt.nestingElse elseBranch ≤ depth)
    exact .of_conditional (conditional_recovers hread hblock (hbranch.block hblock)
      halternative position)
  | .loop condition body position, w, depth, hwf, hdepth => by
    obtain ⟨hcondition, hblock, hbody⟩ := hwf
    simp only [Stmt.nesting] at hdepth
    have hread := (ladder_of_wellFormed hcondition (by omega : condition.nesting ≤ depth)).whole
    have hbody' := (recovered_of_wellFormed hbody (by omega : body.nesting ≤ depth)).block hblock
    exact .of_keyword rfl id (loop_recovers hread hblock hbody' position)
  | .function name names body position, w, depth, hwf, hdepth => by
    obtain ⟨hnodup, hblock, hbody⟩ := hwf
    have hbody' : (Grammar.block (nested depth)).Recovers .functionBody body :=
      (recovered_of_wellFormed hbody hdepth).block hblock
    exact .of_keyword rfl id (function_recovers name hnodup hblock hbody' position)
  | .stray _ _, _, _, hwf, _ => hwf.elim

/-- The statements of a body are read one level further in. -/
theorem statement_recovers_of_mem : ∀ {ss : List Stmt} {w : Setting} {depth : Nat},
    Stmt.AllWellFormed w ss → Stmt.nestingEach ss ≤ depth →
    ∀ s ∈ ss, (nested depth).statement.Recovers w s
  | [], _, _, _, _ => by simp
  | s :: rest, w, depth, hwf, hdepth => by
    obtain ⟨hfirst, hrest⟩ := hwf
    simp only [Stmt.nestingEach] at hdepth
    intro s' hs'
    rcases List.mem_cons.1 hs' with heq | hs'
    · rw [heq]
      cases depth with
      | zero => omega
      | succ depth =>
        exact (recovered_of_wellFormed hfirst (by omega : s.nesting ≤ depth)).statement
    · exact statement_recovers_of_mem hrest (by omega : Stmt.nestingEach rest ≤ depth) s' hs'

/-- An alternative is read one level further in if it is a conditional. -/
theorem alternative_recovers_of_mem : ∀ {o : Option Stmt} {w : Setting} {depth : Nat},
    Stmt.ElseWellFormed w o → Stmt.nestingElse o ≤ depth →
    ∀ s ∈ o, (Grammar.alternative (nested depth)).Recovers w s
  | none, _, _, _, _ => by simp
  | some s, w, depth, hwf, hdepth => by
    obtain ⟨hshape, hwf⟩ := hwf
    intro s' hs'
    rw [Option.mem_some] at hs'
    rw [← hs']
    cases depth with
    | zero => simp [Stmt.nestingElse] at hdepth
    | succ depth =>
      exact (recovered_of_wellFormed hwf (Nat.le_of_succ_le_succ hdepth)).alternative hshape

end

/-! ## Programs -/

theorem program_complete {p : Program} {depth : Nat} (hwf : p.WellFormed)
    (hdepth : p.nesting ≤ depth) {c c' : Cursor} (hc : c.Closed) (hsetting : c.setting = .outermost)
    (hspells : c.Spells p.spelled c') (hend : c'.current.isEnd = true) :
    ∃ q c'', (program (nested depth)).run c = .ok q c'' ∧ Program.unplaced q = p.unplaced := by
  have hstep : ∀ {done : List Stmt} {c c' : Cursor} {s : Stmt} {first : Word},
      c.current.word? = some first → first.OpensStatement →
      (statement (nested depth)).run c = .ok s c' →
      (oneMoreInProgram (nested depth) done).run c = .ok (some (s :: done)) c' := by
    intro done c c' s first hfirst _ hread
    unfold oneMoreInProgram
    rw [run_bind_of_ok run_current, if_neg (by simp [Token.isEnd_eq_false hfirst]),
      run_bind_of_ok hread]
    rfl
  have hstatements : ∀ s ∈ p, (statement (nested depth)).Recovers .outermost s := by
    intro s hs
    have hless : s.nesting < p.nesting := Stmt.nesting_lt_of_mem hs
    exact (recovered_of_wellFormed (hwf s hs) (by omega)).statement
  have hother : c'.current.word? ≠ some (.keyword "else") := by
    rw [Token.word?_eq_none_iff.2 hend]
    simp
  obtain ⟨q, hsteps, hsame⟩ :=
    exists_accepts_statements hstep hwf hstatements [] hc hsetting hspells hother
  have hdecline : (oneMoreInProgram (nested depth) (q.reverse ++ [])).run c' = .ok none c' := by
    unfold oneMoreInProgram
    rw [run_bind_of_ok run_current, if_pos hend]
    rfl
  have htake : (take .endOfInput none).run c' = .ok c'.current c'.advance :=
    run_take_eq_ok.2 ⟨by simpa [Token.matches?, Token.isEnd] using hend, rfl, rfl⟩
  refine ⟨q, c'.advance, ?_, ?_⟩
  · unfold program
    rw [run_bind_of_ok (run_repeatFrom_of_accepts hsteps hdecline), run_bind_of_ok htake,
      run_pure_eq_ok]
    simp
  · rw [Program.unplaced, Program.unplaced, ← Stmt.unplacedAll_eq_map, hsame,
      Stmt.unplacedAll_eq_map]

end Grammar

/-- Tokens with the words of `p` are read as `p`, up to positions. -/
theorem Program.exists_of_words {p : Program} (hwf : p.WellFormed) {tokens : List Token}
    {last : Token} (hwords : tokens.map Token.word? = p.spelled.map some)
    (hlast : last.isEnd = true) {depth : Nat} (hdepth : p.nesting ≤ depth) :
    ∃ q, ofTokens depth (tokens ++ [last]) = .ok q ∧ Program.unplaced q = p.unplaced := by
  obtain ⟨t, rest, hcons⟩ := List.exists_cons_of_ne_nil (by simp : tokens ++ [last] ≠ [])
  have hclosed : ((t :: rest).getLast (by simp)).isEnd = true := by
    simp only [← hcons, List.getLast_concat, hlast]
  let c : Cursor := { behind := [], current := t, ahead := rest, loops := 0, functions := 0 }
  have hc : c.Closed := by simpa [Cursor.Closed, c, List.getLast_eq_getLastD] using hclosed
  obtain ⟨c', hspells, hcurrent, -⟩ := Cursor.Spells.of_tokens (c := c) hcons.symm hwords
  obtain ⟨q, c'', hread, hsame⟩ :=
    Grammar.program_complete hwf hdepth hc rfl hspells (hcurrent ▸ hlast)
  refine ⟨q, ?_, hsame⟩
  have hcursor : Cursor.ofTokens? (tokens ++ [last]) = some c := by
    rw [hcons, Cursor.ofTokens?, if_pos hclosed]
  unfold ofTokens
  rw [hcursor]
  simp only [show Grammar.program (Grammar.nested depth) c = .ok q c'' from hread]

/-- Nothing of the grammar is refused, and the right tree comes back: from `tokens` that spell a
    well-formed `p` that very program is read, up to positions, where `depth` has room for its
    `nesting`. -/
theorem Program.ofTokens_complete {p : Program} (hwf : p.WellFormed) {tokens : List Token}
    {last : Token} (hspelled : Token.WriteAll tokens p.spelled) (hlast : last.isEnd = true)
    {depth : Nat} (hdepth : p.nesting ≤ depth) :
    ∃ q, ofTokens depth (tokens ++ [last]) = .ok q ∧ Program.unplaced q = p.unplaced :=
  exists_of_words hwf (Token.map_word?_of_writeAll hspelled) hlast hdepth

/-- Subtractions group to the left and assignments to the right: `x = y = a - b - c;`. -/
theorem Program.ofTokens_complete_of_assignments :
    let p : Program :=
      [.expression (.assignment "x" (.assignment "y"
        (.binary .sub (.binary .sub (.identifier "a" .unknown) (.identifier "b" .unknown) .unknown)
          (.identifier "c" .unknown) .unknown) .unknown) .unknown) .unknown]
    let tokens : List Token :=
      [.of .identifier "x" .nil ⟨1, 1⟩, .of .operator "=" .nil ⟨1, 3⟩,
       .of .identifier "y" .nil ⟨1, 5⟩, .of .operator "=" .nil ⟨1, 7⟩,
       .of .identifier "a" .nil ⟨1, 9⟩, .of .operator "-" .nil ⟨1, 11⟩,
       .of .identifier "b" .nil ⟨1, 13⟩, .of .operator "-" .nil ⟨1, 15⟩,
       .of .identifier "c" .nil ⟨1, 17⟩, .of .punctuation ";" .nil ⟨1, 18⟩]
    ∃ q, ofTokens 3 (tokens ++ [.endAt ⟨1, 19⟩]) = .ok q ∧ Program.unplaced q = p.unplaced := by
  intro p tokens
  have hwf : p.WellFormed := by
    simp [p, Program.WellFormed, Stmt.WellFormed, Expr.WellFormed, Expr.level, Operator.level,
      Operator.precedence?]
  have hspelled : Token.WriteAll tokens p.spelled := by
    simp [p, tokens, Token.WriteAll, Program.spelled, Stmt.spelledAll, Stmt.spelled, Expr.spelled,
      Token.Writes, Token.of, Operator.spelling]
  exact ofTokens_complete hwf hspelled rfl (by decide)

end Scripting
