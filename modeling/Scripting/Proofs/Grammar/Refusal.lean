import Scripting.Proofs.Grammar.Passage

set_option autoImplicit false

/-! # How readings end

A reading moves its cursor forward and nowhere else: it `Leads` from one to the other. It is refused
because of a token that departs from the grammar, or because there is no room for a further level of
nesting, so a text that is no program is refused for what it says. Both make a reading `Orderly`,
and hold of the single steps and of whatever is put together from such readings. -/

namespace Scripting

/-- Whether the refusal `e` blames a token, or the depth of the nesting. -/
def Refusal.BlamesToken (e : Refusal) : Prop :=
  e = .tooDeep ∨ ∃ v t, e = .fault (.atToken v t)

/-! ## Moving on -/

/-- A cursor some tokens further on, and the cursor itself. -/
inductive Cursor.Leads : Cursor → Cursor → Prop
  | refl (c : Cursor) : Leads c c
  | advance {c c' : Cursor} (h : Leads c.advance c') : Leads c c'

namespace Cursor.Leads

variable {c c' c'' : Cursor}

theorem trans (h : c.Leads c') (h' : c'.Leads c'') : c.Leads c'' := by
  induction h with
  | refl => exact h'
  | advance _ ih => exact .advance (ih h')

theorem withCounts (h : c.Leads c') (loops functions : Nat) :
    (c.withCounts loops functions).Leads (c'.withCounts loops functions) := by
  induction h with
  | refl => exact .refl _
  | advance _ ih =>
    rw [← advance_withCounts] at ih
    exact .advance ih

theorem step (c : Cursor) : c.Leads c.advance :=
  .advance (.refl _)

/-- What a single `advance` keeps, a cursor further on has kept. -/
theorem induct {P : Cursor → Prop} (hstep : ∀ ⦃c⦄, P c → P c.advance) (h : c.Leads c')
    (hc : P c) : P c' := by
  induction h with
  | refl => exact hc
  | advance _ ih => exact ih (hstep hc)

theorem loops_eq (h : c.Leads c') : c'.loops = c.loops :=
  h.induct (P := fun x => x.loops = c.loops) (fun x hx => x.loops_advance.trans hx) rfl

theorem functions_eq (h : c.Leads c') : c'.functions = c.functions :=
  h.induct (P := fun x => x.functions = c.functions) (fun x hx => x.functions_advance.trans hx) rfl

/-- A cursor that is led on to between `enter` and `leave` is led on to without them. -/
theorem of_entered {enter : Cursor → Cursor} {leave : Cursor → Cursor → Cursor}
    (htakes : TakesBack enter leave) (h : (enter c).Leads c') : c.Leads (leave c c') := by
  obtain ⟨loops, functions, henter, hleave⟩ := htakes c
  rw [henter] at h
  rw [hleave c' h.loops_eq h.functions_eq]
  exact h.withCounts c.loops c.functions

theorem length_ahead_le (h : c.Leads c') : c'.ahead.length ≤ c.ahead.length := by
  induction h with
  | refl => exact Nat.le_refl _
  | @advance c c' _ ih =>
    refine Nat.le_trans ih ?_
    unfold Cursor.advance
    split
    · exact Nat.le_refl _
    · split <;> simp_all

end Cursor.Leads

/-! ## Orderly readings -/

/-- Whether the reading `r` only moves on, and is refused only because of tokens and of the depth of
    the nesting. -/
structure Reading.Orderly {α : Type} (r : Reading α) : Prop where
  moves : ∀ ⦃c c' : Cursor⦄ ⦃a : α⦄, r.run c = .ok a c' → c.Leads c'
  blames : ∀ ⦃c c' : Cursor⦄ ⦃e : Refusal⦄, r.run c = .error e c' → e.BlamesToken

namespace Reading.Orderly

variable {α β : Type} {r : Reading α}

theorem tooDeep : Orderly (throw .tooDeep : Reading α) where
  moves _ _ _ h := nomatch h
  blames := by
    intro c c' e h
    cases h
    exact .inl rfl

theorem pure (a : α) : Orderly (Pure.pure a) where
  moves := by
    intro c c' b h
    cases h
    exact .refl _
  blames _ _ _ h := nomatch h

theorem bind {f : α → Reading β} (h : r.Orderly) (hf : ∀ a, (f a).Orderly) :
    (r >>= f).Orderly where
  moves := by
    intro c c' b hread
    obtain ⟨a, c₁, hr, hf'⟩ := run_bind_eq_ok.1 hread
    exact (h.moves hr).trans ((hf a).moves hf')
  blames := by
    intro c c' e hread
    rw [EStateM.run_bind] at hread
    split at hread
    · exact (hf _).blames hread
    · rename_i hrun
      cases hread
      exact h.blames hrun

theorem ite {p : Prop} [Decidable p] {r' : Reading α} (h : r.Orderly) (h' : r'.Orderly) :
    (if p then r else r').Orderly := by
  split
  · exact h
  · exact h'

/-- A reading that may be refused before it begins. -/
theorem guard {p : Prop} [Decidable p] {stop : Reading β} (hstop : stop.Orderly)
    (h : r.Orderly) : (if p then stop >>= fun _ => r else r).Orderly :=
  .ite (.bind hstop fun _ => h) h

theorem refuseAt (v : Violation) (t : Token) : Orderly (refuseAt v t : Reading α) where
  moves _ _ _ h := nomatch h
  blames := by
    intro c c' e h
    rw [run_refuseAt] at h
    cases h
    exact .inr ⟨v, t, rfl⟩

theorem expected (what : Expectation) : Orderly (expected what : Reading α) where
  moves _ _ _ h := nomatch h
  blames := by
    intro c c' e h
    rw [run_expected] at h
    cases h
    exact .inr ⟨_, _, rfl⟩

theorem get : Orderly (MonadState.get : Reading Cursor) where
  moves := by
    intro c c' a h
    cases h
    exact .refl _
  blames _ _ _ h := nomatch h

theorem current : Orderly current where
  moves := by
    intro c c' a h
    cases h
    exact .refl _
  blames _ _ _ h := nomatch h

theorem advance : Orderly advance where
  moves := by
    intro c c' a h
    cases h
    exact .advance (.refl _)
  blames _ _ _ h := nomatch h

theorem check (kind : TokenKind) (lexeme : Option String) : Orderly (check kind lexeme) where
  moves := by
    intro c c' a h
    cases h
    exact .refl _
  blames _ _ _ h := nomatch h

theorem take (kind : TokenKind) (lexeme : Option String) : Orderly (take kind lexeme) :=
  .bind (.check kind lexeme) fun _ => .ite .advance (.expected _)

theorem repeatWithin {step : α → Reading (Option α)} (h : ∀ a, (step a).Orderly)
    (rounds : List β) (a : α) : Orderly (repeatWithin step rounds a) := by
  induction rounds generalizing a with
  | nil => exact .pure a
  | cons round rounds ih =>
    refine .bind (h a) fun o => ?_
    cases o with
    | none => exact .pure a
    | some b => exact ih b

theorem repeatFrom {step : α → Reading (Option α)} (h : ∀ a, (step a).Orderly) (a : α) :
    Orderly (repeatFrom step a) where
  moves c _ _ hread := (repeatWithin h (c.current :: c.ahead) a).moves hread
  blames c _ _ hread := (repeatWithin h (c.current :: c.ahead) a).blames hread

theorem whileSees {kind : TokenKind} {lexeme : String} {step : α → Reading α}
    (h : ∀ a, (step a).Orderly) (a : α) : Orderly (whileSees kind lexeme step a) :=
  .repeatFrom (fun a => .bind (.check _ _) fun _ => .ite (.bind (h a) fun _ => .pure _) (.pure _)) a

/-- The counts that `enter` makes around the cursor make no difference to how it moves. -/
theorem surrounded {enter : Cursor → Cursor} {leave : Cursor → Cursor → Cursor}
    (htakes : Cursor.TakesBack enter leave) (h : r.Orderly) :
    Orderly (surrounded enter leave r) where
  moves := by
    intro c c' a hread
    obtain ⟨c₁, hrun, rfl⟩ := run_surrounded_eq_ok.1 hread
    exact (h.moves hrun).of_entered htakes
  blames := by
    intro c c' e hread
    obtain ⟨c₁, hrun, -⟩ := run_surrounded_eq_error.1 hread
    exact h.blames hrun

end Reading.Orderly

/-- Whether the readings in `g` of the parts that may be nested are `Reading.Orderly`. -/
structure Nested.Orderly (g : Nested) : Prop where
  expression : g.expression.Orderly
  operand : g.operand.Orderly
  statement : g.statement.Orderly
  conditional : g.conditional.Orderly

namespace Grammar

open Reading

variable {g : Nested}

/-! ## Expressions -/

theorem primary_orderly (hg : g.Orderly) : (primary g).Orderly := by
  refine .bind .current fun t => ?_
  split
  · exact .bind .advance fun _ => .pure _
  · refine .ite (.bind .advance fun _ => .pure _) (.ite ?_ (.expected _))
    exact .bind .advance fun _ => .bind hg.expression fun _ => .bind (.take _ _) fun _ => .pure _

theorem elements_orderly {α : Type} {element : List α → Reading α}
    (h : ∀ done, (element done).Orderly) : (elements element).Orderly := by
  have hmore (done : List α) : (oneMore element done).Orderly :=
    .bind .advance fun _ => .bind (h done) fun _ => .pure _
  refine .bind (.check _ _) fun _ => .ite (.pure _) ?_
  exact .bind (h []) fun first => .bind (.whileSees hmore [first]) fun _ => .pure _

theorem arguments_orderly (hg : g.Orderly) : (arguments g).Orderly :=
  .bind (elements_orderly fun _ => hg.expression) fun _ => .bind (.take _ _) fun _ => .pure _

theorem call_orderly (hg : g.Orderly) : (call g).Orderly := by
  have happlication (callee : Expr) : (application g callee).Orderly :=
    .bind .advance fun _ => .bind (arguments_orderly hg) fun _ => .pure _
  exact .bind (primary_orderly hg) fun callee => .whileSees happlication callee

theorem unary_orderly (hg : g.Orderly) : (unary g).Orderly := by
  refine .bind .current fun t => ?_
  split
  · exact .bind .advance fun _ => .bind hg.operand fun _ => .pure _
  · exact call_orderly hg

theorem climb_orderly {operand : Reading Expr} (h : operand.Orderly) (levels : Nat)
    (least : Int) : (climb operand levels least).Orderly := by
  induction levels generalizing least with
  | zero => exact h
  | succ levels ih =>
    have hoperation (left : Expr) : (operation least (climb operand levels) left).Orderly := by
      refine .bind .current fun t => ?_
      split
      · exact .pure _
      · exact .bind .advance fun _ => .bind (ih _) fun _ => .pure _
    exact .bind h fun first => .repeatFrom hoperation first

theorem joined_orderly (op : Operator) {operand : Reading Expr} (h : operand.Orderly) :
    (joined op operand).Orderly := by
  have hjunction (left : Expr) : (junction op operand left).Orderly :=
    .bind .advance fun _ => .bind h fun _ => .pure _
  exact .bind h fun first => .whileSees hjunction first

theorem disjunction_orderly (hg : g.Orderly) : (disjunction g).Orderly :=
  joined_orderly .or (joined_orderly .and (climb_orderly (unary_orderly hg) _ _))

theorem expression_orderly (hg : g.Orderly) : (expression g).Orderly := by
  refine .bind (disjunction_orderly hg) fun target => .bind .current fun t => .ite ?_ (.pure _)
  refine .bind .advance fun _ => .bind hg.expression fun value => ?_
  split
  · exact .pure _
  · exact .refuseAt _ _

/-! ## Statements -/

theorem block_orderly (hg : g.Orderly) : (block g).Orderly := by
  have hmore (done : List Stmt) : (oneMoreInBlock g done).Orderly :=
    .bind (.check _ _) fun _ => .ite (.pure _) <| .bind .current fun _ =>
      .ite (.expected _) <| .bind hg.statement fun _ => .pure _
  exact .bind (.take _ _) fun _ => .bind (.repeatFrom hmore []) fun _ =>
    .bind (.take _ _) fun _ => .pure _

theorem declaration_orderly (hg : g.Orderly) : (declaration g).Orderly := by
  have hexpression := expression_orderly hg
  refine .bind (.take _ _) fun _ => .bind (.check _ _) fun _ => .guard (.expected _) ?_
  refine .bind .advance fun _ => .bind (.check _ _) fun _ => .ite ?_ ?_
  · exact .bind .advance fun _ => .bind hexpression fun _ => .bind (.pure _) fun _ =>
      .bind (.take _ _) fun _ => .pure _
  · exact .bind (.pure _) fun _ => .bind (.take _ _) fun _ => .pure _

theorem printStatement_orderly (hg : g.Orderly) : (printStatement g).Orderly :=
  .bind (.take _ _) fun _ => .bind (expression_orderly hg) fun _ =>
    .bind (.take _ _) fun _ => .pure _

theorem conditional_orderly (hg : g.Orderly) : (conditional g).Orderly := by
  have halternative : (alternative g).Orderly :=
    .bind (.check _ _) fun _ => .ite hg.conditional (block_orderly hg)
  refine .bind (.take _ _) fun _ => .bind (expression_orderly hg) fun _ => ?_
  refine .bind (block_orderly hg) fun _ => .bind (.check _ _) fun _ => .ite ?_ ?_
  · exact .bind .advance fun _ => .bind halternative fun _ => .bind (.pure _) fun _ => .pure _
  · exact .bind (.pure _) fun _ => .pure _

theorem loop_orderly (hg : g.Orderly) : (loop g).Orderly :=
  .bind (.take _ _) fun _ => .bind (expression_orderly hg) fun _ =>
    .bind (.surrounded Cursor.takesBack_loop (block_orderly hg)) fun _ => .pure _

theorem jump_orderly (which : Jump) : (jump which).Orderly :=
  .bind .current fun _ => .bind .get fun _ => .guard (.refuseAt _ _) <|
    .bind .advance fun _ => .bind (.take _ _) fun _ => .pure _

theorem parameter_orderly (name : String) (done : List String) : (parameter name done).Orderly :=
  .bind (.take _ _) fun _ => .guard (.refuseAt _ _) (.pure _)

theorem function_orderly (hg : g.Orderly) : (function g).Orderly := by
  have hbody : (insideFunction (block g)).Orderly :=
    .surrounded Cursor.takesBack_function (block_orderly hg)
  refine .bind (.take _ _) fun _ => .bind (.check _ _) fun _ => .guard (.expected _) ?_
  exact .bind .advance fun name => .bind (.take _ _) fun _ =>
    .bind (elements_orderly (parameter_orderly name.lexeme)) fun _ => .bind (.take _ _) fun _ =>
      .bind hbody fun _ => .pure _

theorem result_orderly (hg : g.Orderly) : (result g).Orderly := by
  refine .bind .current fun _ => .bind .get fun _ => .guard (.refuseAt _ _) ?_
  refine .bind .advance fun _ => .bind (.check _ _) fun _ => .ite ?_ ?_
  · exact .bind (.pure _) fun _ => .bind (.take _ _) fun _ => .pure _
  · exact .bind (expression_orderly hg) fun _ => .bind (.pure _) fun _ =>
      .bind (.take _ _) fun _ => .pure _

theorem expressionStatement_orderly (hg : g.Orderly) :
    (expressionStatement g).Orderly :=
  .bind .current fun _ => .bind (expression_orderly hg) fun _ =>
    .bind (.take _ _) fun _ => .pure _

theorem statement_orderly (hg : g.Orderly) : (statement g).Orderly := by
  have hkeyword (keyword : String) : (keywordStatement g keyword).Orderly := by
    unfold keywordStatement
    split
    · exact declaration_orderly hg
    · exact function_orderly hg
    · exact printStatement_orderly hg
    · exact conditional_orderly hg
    · exact loop_orderly hg
    · exact result_orderly hg
    · exact jump_orderly .leave
    · exact jump_orderly .again
    · exact expressionStatement_orderly hg
  exact .bind .current fun t => .ite (hkeyword t.lexeme)
    (.ite (block_orderly hg) (expressionStatement_orderly hg))

theorem nested_orderly (depth : Nat) : (nested depth).Orderly := by
  induction depth with
  | zero => exact ⟨.tooDeep, .tooDeep, .tooDeep, .tooDeep⟩
  | succ depth ih =>
    exact {
      expression := expression_orderly ih
      operand := unary_orderly ih
      statement := statement_orderly ih
      conditional := conditional_orderly ih }

theorem program_orderly (hg : g.Orderly) : (program g).Orderly := by
  have hmore (done : List Stmt) : (oneMoreInProgram g done).Orderly :=
    .bind .current fun _ => .ite (.pure _) (.bind (statement_orderly hg) fun _ => .pure _)
  exact .bind (.repeatFrom hmore []) fun _ => .bind (.take _ _) fun _ => .pure _

end Grammar

/-! ## Texts -/

/-- The fault of a text that `scanFrom` cannot scan is one of its characters. -/
theorem exists_strayCharacter_of_scanFrom {done : List Token} {p : Position} {s : List Char}
    {f : Fault} (h : (scanFrom done p s).fault = some f) : ∃ c q, f = strayCharacter c q := by
  fun_induction scanFrom done p s with
  | case1 done p s cut _ ih => exact ih h
  | case2 done p => simp at h
  | case3 done p c rest => exact ⟨c, p, by simpa using h.symm⟩

/-- Tokens that `ofTokens` refuses with a fault depart from the grammar. -/
theorem Program.cause_of_ofTokens {depth : Nat} {tokens : List Token} {f : Fault}
    (h : ofTokens depth tokens = .error (.fault f)) : ∃ v found, f.cause = .violation v found := by
  unfold ofTokens at h
  split at h
  · cases h
    exact ⟨_, _, rfl⟩
  · split at h
    · simp at h
    · rename_i e c' hrun
      cases h
      rcases (Grammar.program_orderly (Grammar.nested_orderly depth)).blames hrun with
        hdeep | ⟨v, t, hfault⟩
      · simp at hdeep
      · cases hfault
        exact ⟨v, some t, rfl⟩

/-- A text that `ofSource` refuses with a fault has a character that begins no item, or departs from
    the grammar. -/
theorem Program.cause_of_ofSource {depth : Nat} {source : String} {f : Fault}
    (h : ofSource depth source = .error (.fault f)) :
    (∃ c q, f = strayCharacter c q) ∨ ∃ v found, f.cause = .violation v found := by
  unfold ofSource at h
  split at h
  · rename_i f' htokens
    cases h
    unfold tokenize at htokens
    simp only at htokens
    split at htokens
    · rename_i hfault
      cases htokens
      exact .inl (exists_strayCharacter_of_scanFrom hfault)
    · simp at htokens
  · rename_i tokens _
    cases hread : ofTokens depth tokens with
    | ok p => simp [hread, Except.map] at h
    | error e =>
      simp only [hread, Except.map, Except.error.injEq] at h
      subst h
      exact .inr (cause_of_ofTokens hread)

end Scripting
