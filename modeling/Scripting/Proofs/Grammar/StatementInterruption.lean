import Mathlib.Algebra.Order.BigOperators.Group.List
import Mathlib.Algebra.Order.Group.Nat
import Scripting.Proofs.Grammar.ExpressionInterruption

set_option autoImplicit false

/-! # Statements that are broken off

What has been read of a statement up to an end of input can be completed to a statement that is
well-formed there: every check is made at the token that decides it, but for the one of the left
side of an assignment, which `Misassigned` tells of. A block, a value and a name are all that may be
due. -/

namespace Scripting

namespace Grammar

open Reading

variable {g : Nested}

theorem expression_breaks (hs : g.Sound) (hg : g.Breaks) : (expression g).BreaksAt 0 :=
  assignment_breaks hs hg

/-- Where a statement is due, an empty `block` will do. -/
theorem begins_nil_of_block {shape : Stmt → Prop} (hshape : shape (.block [] .unknown))
    (w : Setting) : (Stmt.spellings shape w).Begins [] := by
  refine ⟨[.mark openBrace, .mark closeBrace], by simp [Word.Fills], .inr ?_⟩
  exact ⟨.block [] .unknown, hshape, trivial, rfl⟩

/-! ## Statements without bodies -/

section WithoutBodies

variable {w : Setting} (hs : g.Sound) (hg : g.Breaks)

/-- The words behind an expression that ends a statement. -/
theorem fills_semicolon : ∀ w ∈ [Word.mark ";"], w.Fills := by
  simp [Word.Fills]

include hs hg

theorem expressionStatement_breaks : (expressionStatement g).BreaksAs fun _ => True := by
  intro c hc
  have hstatement : ∀ e : Expr, e.WellFormed →
      (Stmt.spellings (fun _ => True) c.setting).has (e.spelled ++ [.mark ";"]) := fun e hwf =>
    .inr ⟨.expression e .unknown, trivial, hwf, rfl⟩
  refine .look_bind run_current (.bind ?_ fun e c₁ he => ?_)
  · exact (expression_breaks hs hg hc).expression fills_semicolon fun e hwf _ => hstatement e hwf
  · obtain ⟨hwf, -, hspells, -⟩ := expression_sound hs hc he
    refine ⟨_, hspells, .eatMark_bind ?_ fun _ => .pure _⟩
    exact ⟨_, fills_semicolon, hstatement e hwf⟩

theorem printStatement_breaks : (printStatement g).BreaksAs fun _ => True := by
  intro c hc
  have hstatement : ∀ e : Expr, e.WellFormed →
      (Stmt.spellings (fun _ => True) c.setting).has
        (.keyword "print" :: (e.spelled ++ [.mark ";"])) := fun e hwf =>
    .inr ⟨.print e .unknown, trivial, hwf, rfl⟩
  refine .eatKeyword_bind rfl (begins_nil_of_block trivial _) fun _ => .bind ?_ fun e c₁ he => ?_
  · exact (expression_breaks hs hg hc.advance).expression fills_semicolon
      fun e hwf _ => hstatement e hwf
  · obtain ⟨hwf, -, hspells, -⟩ := expression_sound hs hc.advance he
    refine ⟨_, hspells, .eatMark_bind ?_ fun _ => .pure _⟩
    exact ⟨_, fills_semicolon, hstatement e hwf⟩

theorem declaration_breaks : (declaration g).BreaksAs fun _ => True := by
  intro c hc
  have hstatement : ∀ (name : String) (initializer : Option Expr),
      (∀ e ∈ initializer, e.WellFormed) → (Stmt.spellings (fun _ => True) c.setting).has
        (.keyword "let" :: .name name :: (Expr.spelledInitial initializer ++ [.mark ";"])) :=
    fun name initializer hwf =>
      .inr ⟨.declaration name initializer .unknown, trivial, hwf, rfl⟩
  refine .eatKeyword_bind rfl (begins_nil_of_block trivial _) fun _ => ?_
  refine .look_bind run_checkIdentifier ?_
  split
  · refine .expected_bind ⟨[.name (underscores 0), .mark ";"], ?_, ?_⟩ _
    · simp [Word.Fills]
    · exact hstatement (underscores 0) none (by simp)
  rename_i hname
  simp only [Bool.not_eq_true', decide_eq_false_iff_not, not_not] at hname
  refine .advance_bind hname (.look_bind (run_seesOperator _) ?_)
  split
  · rename_i hequals
    rw [decide_eq_true_iff] at hequals
    refine .advance_bind hequals (.bind ?_ fun e c₁ he => ?_)
    · exact (expression_breaks hs hg hc.advance.advance.advance).expression fills_semicolon
        fun e hwf _ => hstatement _ (some e) (by simpa using hwf)
    · obtain ⟨hwf, -, hspells, -⟩ := expression_sound hs hc.advance.advance.advance he
      refine ⟨_, hspells, .look_bind rfl (.eatMark_bind ?_ fun _ => .pure _)⟩
      exact ⟨_, fills_semicolon, hstatement _ (some e) (by simpa using hwf)⟩
  · refine .look_bind rfl (.eatMark_bind ?_ fun _ => .pure _)
    exact ⟨_, fills_semicolon, hstatement _ none (by simp)⟩

omit hs hg in
/-- Outside of loops `jump` is refused at its keyword. -/
theorem jump_breaks (which : Jump) {c : Cursor}
    (hword : c.current.word? = some (.keyword which.keyword)) :
    (jump which : Reading Stmt).Breaks c (Stmt.spellings (fun _ => True) c.setting) := by
  refine .look_bind run_current (.look_bind run_get ?_)
  split
  · exact .refuseAt_bind (Token.isEnd_eq_false hword) _
  · rename_i hloops
    refine .advance_bind hword (.eatMark_bind ⟨_, fills_semicolon, .inr ?_⟩ fun _ => .pure _)
    exact ⟨.jump which .unknown, trivial,
      by simpa [Stmt.WellFormed, Cursor.setting] using hloops, rfl⟩

/-- Outside of functions `result` is refused at its keyword. -/
theorem result_breaks {c : Cursor} (hc : c.Closed)
    (hword : c.current.word? = some (.keyword "return")) :
    (result g).Breaks c (Stmt.spellings (fun _ => True) c.setting) := by
  refine .look_bind run_current (.look_bind run_get ?_)
  split
  · exact .refuseAt_bind (Token.isEnd_eq_false hword) _
  rename_i hfunctions
  have hsetting : c.setting.inFunction = true := by simpa [Cursor.setting] using hfunctions
  have hstatement : ∀ value : Option Expr, (∀ e ∈ value, e.WellFormed) →
      (Stmt.spellings (fun _ => True) c.setting).has
        (.keyword "return" :: (Expr.spelledOption value ++ [.mark ";"])) := fun value hwf =>
    .inr ⟨.result value .unknown, trivial, ⟨hsetting, hwf⟩, rfl⟩
  refine .advance_bind hword (.look_bind (run_seesMark _) ?_)
  split
  · refine .look_bind rfl (.eatMark_bind ?_ fun _ => .pure _)
    exact ⟨_, fills_semicolon, hstatement none (by simp)⟩
  · refine .bind ?_ fun e c₁ he => ?_
    · exact (expression_breaks hs hg hc.advance).expression fills_semicolon
        fun e hwf _ => hstatement (some e) (by simpa using hwf)
    · obtain ⟨hwf, -, hspells, -⟩ := expression_sound hs hc.advance he
      refine ⟨_, hspells, .look_bind rfl (.eatMark_bind ?_ fun _ => .pure _)⟩
      exact ⟨_, fills_semicolon, hstatement (some e) (by simpa using hwf)⟩

end WithoutBodies

/-! ## Bodies -/

/-- Statements one after the other, where the `step` can be completed behind those before it. -/
theorem statements_breaks {r : Reading Stmt} {step : List Stmt → Reading (Option (List Stmt))}
    {L : Spellings} {c : Cursor} (hr : r.Gives fun _ => True)
    (hstep : ∀ {done done' : List Stmt} {c c' : Cursor}, (step done).run c = .ok (some done') c' →
      ∃ s, r.run c = .ok s c' ∧ done' = s :: done)
    (hbreaks : ∀ {done : List Stmt} {c₁ : Cursor}, c₁.Closed → c₁.setting = c.setting →
      (∀ s ∈ done, s.WellFormed c.setting) →
      (step done).Breaks c₁ (L.behind (Stmt.spelledAll done.reverse)))
    (hc : c.Closed) : (repeatFrom step []).Breaks c L := by
  refine .repeatFrom
    (I := fun done front c₁ => c₁.setting = c.setting ∧ (∀ s ∈ done, s.WellFormed c.setting) ∧
      Stmt.spelledAll done.reverse = front)
    ?_ ?_ hc ⟨rfl, by simp, rfl⟩
  · rintro done done' front c₁ c₂ hc₁ ⟨hsetting, hwf, rfl⟩ hread
    obtain ⟨s, hs, rfl⟩ := hstep hread
    obtain ⟨-, hwf', hspells⟩ := hr hc₁ hs
    obtain ⟨first, words, hfirst, -⟩ := Stmt.exists_spelled_eq_cons hwf'
    refine ⟨first, words, hfirst ▸ hspells, hspells.setting_eq.trans hsetting, ?_, ?_⟩
    · simpa [hsetting ▸ hwf'] using hwf
    · rw [List.reverse_cons, Stmt.spelledAll_append, ← hfirst]
      simp [Stmt.spelledAll]
  · rintro done front c₁ hc₁ ⟨hsetting, hwf, rfl⟩
    exact hbreaks hc₁ hsetting hwf

/-- The statements `done` of a block with one more behind them. -/
theorem allWellFormed_concat {w : Setting} {done : List Stmt} {s : Stmt}
    (hdone : ∀ s ∈ done, s.WellFormed w) (hs : s.WellFormed w) :
    ∀ s' ∈ done.reverse ++ [s], s'.WellFormed w := by
  intro s' hs'
  rcases List.mem_append.1 hs' with hs' | hs'
  · exact hdone s' (List.mem_reverse.1 hs')
  · rwa [List.mem_singleton.1 hs']

theorem block_breaks (hs : g.Sound) (hg : g.Breaks) : (block g).BreaksAs Stmt.IsBlock := by
  intro c hc
  have hclose : ∀ w ∈ [Word.mark closeBrace], w.Fills := by simp [Word.Fills]
  have hblock : ∀ ss : List Stmt, (∀ s ∈ ss, s.WellFormed c.setting) →
      (Stmt.spellings Stmt.IsBlock c.setting).has
        (.mark openBrace :: (Stmt.spelledAll ss ++ [.mark closeBrace])) := fun ss hwf =>
    .inr ⟨.block ss .unknown, trivial, Stmt.allWellFormed_iff.2 hwf, rfl⟩
  refine .eatMark_bind (begins_nil_of_block trivial _) fun hopen => .bind ?_ fun done c₁ hloop => ?_
  · refine statements_breaks hs.statement oneMoreInBlock_eq_some ?_ hc.advance
    intro done c₁ hc₁ hsetting hdone
    rw [c.setting_advance] at hsetting hdone
    refine .look_bind (run_seesMark _) ?_
    split
    · exact .pure _
    refine .look_bind run_current ?_
    split
    · -- the brace is all that is missing
      exact .expected ⟨_, hclose, hblock done.reverse (by simpa using hdone)⟩ _
    · refine .bind_pure ((hg.statement hc₁).statement hclose fun s _ hwf => ?_) _
      have hall := hblock _ (allWellFormed_concat hdone (hsetting ▸ hwf))
      simpa [Spellings.behind, Stmt.spelledAll_append, Stmt.spelledAll] using hall
  · obtain ⟨c₂, hwf, hspells, hdecline⟩ :=
      statements_sound hs.statement oneMoreInBlock_eq_some hc.advance hloop
    obtain rfl := oneMoreInBlock_eq_none hdecline
    rw [c.setting_advance] at hwf
    refine ⟨_, hspells, .eatMark_bind ?_ fun _ => .pure _⟩
    exact ⟨_, hclose, hblock done.reverse (by simpa using hwf)⟩

theorem alternative_breaks (hs : g.Sound) (hg : g.Breaks) :
    (alternative g).BreaksAs Stmt.IsAlternative := by
  intro c hc
  refine .look_bind (run_seesKeyword rfl) ?_
  split
  · exact hg.conditional hc
  · exact (block_breaks hs hg hc).lastStatement fun s hshape hwf =>
      .inr ⟨s, hshape.isAlternative, hwf, rfl⟩

/-- The words of an empty block. -/
theorem fills_block : ∀ w ∈ [Word.mark openBrace, .mark closeBrace], w.Fills := by
  simp [Word.Fills]

theorem conditional_breaks (hs : g.Sound) (hg : g.Breaks) :
    (conditional g).BreaksAs Stmt.IsAlternative := by
  intro c hc
  have hconditional : ∀ (condition : Expr) (thenBranch : Stmt) (elseBranch : Option Stmt),
      condition.WellFormed → thenBranch.IsBlock → thenBranch.WellFormed c.setting →
      Stmt.ElseWellFormed c.setting elseBranch →
      (Stmt.spellings Stmt.IsAlternative c.setting).has (.keyword "if" ::
        (condition.spelled ++ (thenBranch.spelled ++ Stmt.spelledElse elseBranch))) :=
    fun condition thenBranch elseBranch hwf hblock hwf' helse =>
      .inr ⟨.conditional condition thenBranch elseBranch .unknown, trivial,
        ⟨hwf, hblock, hwf', helse⟩, rfl⟩
  refine .eatKeyword_bind rfl (begins_nil_of_block trivial _) fun _ => .bind ?_
    fun condition c₁ hcondition => ?_
  · exact (expression_breaks hs hg hc.advance).expression fills_block fun e hwf _ =>
      hconditional e (.block [] .unknown) none hwf trivial trivial trivial
  obtain ⟨hwf, -, hspells, -⟩ := expression_sound hs hc.advance hcondition
  have hc₁ := hspells.closed hc.advance
  have hsetting₁ : c₁.setting = c.setting := hspells.setting_eq.trans c.setting_advance
  refine ⟨_, hspells, .bind ?_ fun thenBranch c₂ hthen => ?_⟩
  · refine (block_breaks hs hg hc₁).lastStatement fun s hblock hwf' => ?_
    rw [hsetting₁] at hwf'
    have hfull := hconditional condition s none hwf hblock hwf' trivial
    simpa [Spellings.behind, Stmt.spelledElse] using hfull
  obtain ⟨hblock, hwf', hspells'⟩ := block_sound hs hc₁ hthen
  have hc₂ := hspells'.closed hc₁
  have hsetting₂ : c₂.setting = c.setting := hspells'.setting_eq.trans hsetting₁
  rw [hsetting₁] at hwf'
  refine ⟨_, hspells', .look_bind (run_seesKeyword rfl) ?_⟩
  split
  · rename_i helse
    rw [decide_eq_true_iff] at helse
    refine .advance_bind helse (.bind ?_ fun s c₃ hs' => ?_)
    · refine (alternative_breaks hs hg hc₂.advance).lastStatement fun s hshape hwf'' => ?_
      rw [c₂.setting_advance, hsetting₂] at hwf''
      exact hconditional condition thenBranch (some s) hwf hblock hwf' ⟨hshape, hwf''⟩
    · obtain ⟨-, -, hspells''⟩ := alternative_sound hs hc₂.advance hs'
      exact ⟨_, hspells'', .look_bind rfl (.pure _)⟩
  · exact .look_bind rfl (.pure _)

theorem loop_breaks (hs : g.Sound) (hg : g.Breaks) : (loop g).BreaksAs fun _ => True := by
  intro c hc
  have hloop : ∀ (condition : Expr) (body : Stmt), condition.WellFormed → body.IsBlock →
      body.WellFormed c.setting.loopBody → (Stmt.spellings (fun _ => True) c.setting).has
        (.keyword "while" :: (condition.spelled ++ body.spelled)) :=
    fun condition body hwf hblock hwf' =>
      .inr ⟨.loop condition body .unknown, trivial, ⟨hwf, hblock, hwf'⟩, rfl⟩
  refine .eatKeyword_bind rfl (begins_nil_of_block trivial _) fun _ => .bind ?_
    fun condition c₁ hcondition => ?_
  · exact (expression_breaks hs hg hc.advance).expression fills_block fun e hwf _ =>
      hloop e (.block [] .unknown) hwf trivial trivial
  obtain ⟨hwf, -, hspells, -⟩ := expression_sound hs hc.advance hcondition
  have hc₁ : (c₁.withCounts (c₁.loops + 1) c₁.functions).Closed := hspells.closed hc.advance
  have hsetting : (c₁.withCounts (c₁.loops + 1) c₁.functions).setting = c.setting.loopBody := by
    rw [← c.setting_advance, ← hspells.setting_eq]
    rfl
  refine ⟨_, hspells, .bind (.surrounded rfl ?_) fun body c₂ hbody => ?_⟩
  · refine (block_breaks hs hg hc₁).lastStatement fun s hblock hwf' => ?_
    exact hloop condition s hwf hblock (hsetting ▸ hwf')
  · obtain ⟨-, -, hspells'⟩ :=
      insideLoop_sound (block_sound hs) (hspells.closed hc.advance) hbody
    exact ⟨_, hspells', .pure _⟩

/-! ## Functions -/

@[simp] theorem length_underscores (n : Nat) : (underscores n).length = n + 1 := by
  simp [underscores]

/-- There is always another name than those in `names`: one that is longer than the others. -/
theorem exists_underscores_notMem (names : List String) : ∃ n, underscores n ∉ names := by
  refine ⟨(names.map String.length).sum, fun hmem => ?_⟩
  have hlength := List.le_sum_of_mem (List.mem_map_of_mem (f := String.length) hmem)
  rw [length_underscores] at hlength
  omega

/-- The spellings of functions behind the opening parenthesis of their parameters. -/
def functionSpellings : Spellings where
  has words := Misassigned words ∨ ∃ (names : List String) (body : Stmt), names.Nodup ∧
    body.IsBlock ∧ body.WellFormed .functionBody ∧
    commaSeparated (names.map fun p => [.name p]) ++ .mark ")" :: body.spelled = words
  misassigned _ := .inl

/-- A parameter that is there already is refused at its name, and `underscores` has always another
    one. -/
theorem parameters_breaks (name : String) {c : Cursor} (hc : c.Closed) :
    (parameters name).Breaks c functionSpellings := by
  refine elements_breaks (fun p => [.name p]) (I := List.Nodup) List.nodup_nil
    (fun _ hdone h => parameter_sound hdone h) (fun {done c} _ hdone => ?_) hc
  refine .bind (.take ?_ _ _) fun t c₁ htake => ?_
  · obtain ⟨n, hfresh⟩ := exists_underscores_notMem done
    refine ⟨[.name (underscores n), .mark ")", .mark openBrace, .mark closeBrace],
      by simp [Word.Fills], Or.inr ?_⟩
    refine ⟨done.reverse ++ [underscores n], .block [] .unknown, ?_, trivial, trivial, ?_⟩
    · rw [← List.reverse_cons, List.nodup_reverse]
      exact hdone.cons hfresh
    · rw [List.map_append, List.map_singleton, commaSeparated_map_concat]
      simp [Stmt.spelled, Stmt.spelledAll]
  · obtain ⟨hname, rfl, rfl⟩ := run_takeName_eq_ok.1 htake
    refine ⟨_, .single hname, ?_⟩
    split
    · exact .refuseAt_bind (Token.isEnd_eq_false hname) _
    · exact .pure _

theorem function_breaks (hs : g.Sound) (hg : g.Breaks) : (function g).BreaksAs fun _ => True := by
  intro c hc
  have hfunction : ∀ (name : String) (words : List Word), functionSpellings.has words →
      (Stmt.spellings (fun _ => True) c.setting).has
        (.keyword "fn" :: .name name :: .mark "(" :: words) := by
    rintro name words (hmisassigned | ⟨names, body, hnodup, hblock, hwf, rfl⟩)
    · exact .inl (hmisassigned.append_left [.keyword "fn", .name name, .mark "("])
    · exact .inr ⟨.function name names body .unknown, trivial, ⟨hnodup, hblock, hwf⟩, rfl⟩
  have hempty : functionSpellings.has [.mark ")", .mark openBrace, .mark closeBrace] :=
    .inr ⟨[], .block [] .unknown, List.nodup_nil, trivial, trivial, rfl⟩
  have hwhole : ∀ name, (Stmt.spellings (fun _ => True) c.setting).has [.keyword "fn", .name name,
      .mark "(", .mark ")", .mark openBrace, .mark closeBrace] := fun name =>
    hfunction name _ hempty
  refine .eatKeyword_bind rfl (begins_nil_of_block trivial _) fun _ => ?_
  refine .look_bind run_checkIdentifier ?_
  split
  · refine .expected_bind ⟨[.name (underscores 0), .mark "(", .mark ")", .mark openBrace,
      .mark closeBrace], ?_, hwhole _⟩ _
    simp [Word.Fills]
  rename_i hname
  simp only [Bool.not_eq_true', decide_eq_false_iff_not, not_not] at hname
  refine .advance_bind hname (.eatMark_bind ⟨_, by simp [Word.Fills], hwhole _⟩ fun hopen => ?_)
  have hc₁ := hc.advance.advance.advance
  refine .bind ((parameters_breaks _ hc₁).mono fun words h => hfunction _ words h)
    fun names c₂ hnames => ?_
  obtain ⟨hnodup, hspells⟩ := parameters_sound hc₁ hnames
  have hbody : ∀ body : Stmt, body.IsBlock → body.WellFormed .functionBody →
      (Stmt.spellings (fun _ => True) c.setting).has (.keyword "fn" ::
        .name c.advance.current.lexeme :: .mark "(" ::
          (commaSeparated (names.map fun p => [.name p]) ++ .mark ")" :: body.spelled)) :=
      fun body hblock hwf =>
    hfunction _ _ (.inr ⟨names, body, hnodup, hblock, hwf, rfl⟩)
  refine ⟨_, hspells, .eatMark_bind ?_ fun _ => .bind_pure (.surrounded rfl ?_) _⟩
  · exact ⟨[.mark ")", .mark openBrace, .mark closeBrace], by simp [Word.Fills],
      hbody (.block [] .unknown) trivial trivial⟩
  · have hc₂ : (c₂.advance.withCounts 0 (c₂.advance.functions + 1)).Closed :=
      (hspells.closed hc₁).advance
    refine (block_breaks hs hg hc₂).lastStatement fun body hblock hwf => ?_
    have hfull := hbody body hblock hwf
    simpa [Spellings.behind] using hfull

/-! ## Statements and programs -/

theorem statement_breaks (hs : g.Sound) (hg : g.Breaks) :
    (statement g).BreaksAs fun _ => True := by
  have halternative : ∀ {r : Reading Stmt} {shape : Stmt → Prop}, r.BreaksAs shape →
      r.BreaksAs fun _ => True := fun h c hc =>
    (h hc).lastStatement fun s _ hwf => .inr ⟨s, trivial, hwf, rfl⟩
  intro c hc
  refine .look_bind run_current ?_
  split
  · rename_i hkind
    unfold keywordStatement
    split
    · exact declaration_breaks hs hg hc
    · exact function_breaks hs hg hc
    · exact printStatement_breaks hs hg hc
    · exact halternative (conditional_breaks hs hg) hc
    · exact loop_breaks hs hg hc
    · rename_i hlexeme
      exact result_breaks hs hg hc (Token.word?_of_keyword hkind hlexeme rfl)
    · rename_i hlexeme
      exact jump_breaks .leave (Token.word?_of_keyword hkind hlexeme rfl)
    · rename_i hlexeme
      exact jump_breaks .again (Token.word?_of_keyword hkind hlexeme rfl)
    · exact expressionStatement_breaks hs hg hc
  · split
    · exact halternative (block_breaks hs hg) hc
    · exact expressionStatement_breaks hs hg hc

/-- The parts that may be nested can be completed where they are broken off, for every `depth`. -/
theorem nested_breaks (depth : Nat) : (nested depth).Breaks := by
  induction depth with
  | zero =>
    -- without room for a level nothing is refused for what stands there
    constructor <;> exact fun _ _ => .tooDeep
  | succ depth ih =>
    have hs := nested_sound depth
    exact {
      expression := expression_breaks hs ih
      operand := unary_breaks hs.expression ih
      statement := statement_breaks hs ih
      conditional := conditional_breaks hs ih }

end Grammar

/-- The spellings of programs. -/
def Program.spellings : Spellings where
  has words := Misassigned words ∨ ∃ p : Program, p.WellFormed ∧ p.spelled = words
  misassigned _ := .inl

namespace Grammar

open Reading

variable {g : Nested}

theorem program_breaks (hs : g.Sound) (hg : g.Breaks) {c : Cursor} (hc : c.Closed)
    (hsetting : c.setting = .outermost) : (program g).Breaks c Program.spellings := by
  have hprogram : ∀ ss : List Stmt, (∀ s ∈ ss, s.WellFormed c.setting) →
      Program.spellings.has (Stmt.spelledAll ss) := fun ss hwf =>
    .inr ⟨ss, fun s hs => hsetting ▸ hwf s hs, rfl⟩
  refine .bind ?_ fun done c₁ hloop => ?_
  · refine statements_breaks (statement_sound hs) oneMoreInProgram_eq_some ?_ hc
    intro done c₁ hc₁ hsetting' hdone
    refine .look_bind run_current ?_
    split
    · exact .pure _
    refine .bind_pure ((statement_breaks hs hg hc₁).lastStatement fun s _ hwf => ?_) _
    have hall := hprogram _ (allWellFormed_concat hdone (hsetting' ▸ hwf))
    simpa [Spellings.behind, Stmt.spelledAll_append, Stmt.spelledAll] using hall
  · obtain ⟨c₂, hwf, hspells, hdecline⟩ :=
      statements_sound (statement_sound hs) oneMoreInProgram_eq_some hc hloop
    obtain ⟨rfl, -⟩ := oneMoreInProgram_eq_none hdecline
    refine ⟨_, hspells, .bind_pure (.take ⟨[], by simp, ?_⟩ _ _) _⟩
    simpa [Spellings.behind] using hprogram done.reverse (by simpa using hwf)

end Grammar

end Scripting
