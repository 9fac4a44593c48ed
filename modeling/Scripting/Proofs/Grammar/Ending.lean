import Scripting.Proofs.Grammar.Refusal

set_option autoImplicit false

/-! # Readings at an end of input

No reading gets past an end of input. There it either leaves the cursor where it is or is refused
for what is missing (`Reading.Settles`, `Reading.Refuses`), unless there is no room for a further
level of nesting. So a text that is refused for another reason is refused for what stands before its
end. -/

namespace Scripting

/-- Whether the refusal `e` blames an end of input, or the depth of the nesting. -/
def Refusal.BlamesEnd (e : Refusal) : Prop :=
  e = .tooDeep ∨ ∃ v t, e = .fault (.atToken v t) ∧ t.isEnd = true

namespace Reading

variable {α β : Type}

/-- Whether the reading `r` is refused at an end of input, for what is missing there. -/
def Refuses (r : Reading α) : Prop :=
  ∀ ⦃c : Cursor⦄, c.current.isEnd = true → ∃ e c₁, r.run c = .error e c₁ ∧ e.BlamesEnd

/-- Whether the reading `r` stays at an end of input, or is refused for what is missing there. -/
def Settles (r : Reading α) : Prop :=
  ∀ ⦃c : Cursor⦄, c.current.isEnd = true →
    (∃ a, r.run c = .ok a c) ∨ ∃ e c₁, r.run c = .error e c₁ ∧ e.BlamesEnd

/-- An end of input is no token of another `kind`. -/
theorem matches?_eq_false_of_isEnd {t : Token} (hend : t.isEnd = true) {kind : TokenKind}
    (hkind : kind ≠ .endOfInput) (lexeme : Option String) : t.matches? kind lexeme = false := by
  simp only [Token.isEnd, decide_eq_true_eq] at hend
  simp [Token.matches?, hend, hkind.symm]

namespace Refuses

variable {r : Reading α} {f : α → Reading β}

theorem settles (h : r.Refuses) : r.Settles :=
  fun _ hend => .inr (h hend)

theorem tooDeep : (throw .tooDeep : Reading α).Refuses :=
  fun c _ => ⟨.tooDeep, c, rfl, .inl rfl⟩

theorem expected (what : Expectation) : (expected what : Reading α).Refuses :=
  fun c hend => ⟨_, c, rfl, .inr ⟨_, _, rfl, hend⟩⟩

theorem bind (h : r.Refuses) (f : α → Reading β) : (r >>= f).Refuses := by
  intro c hend
  obtain ⟨e, c₁, hrun, he⟩ := h hend
  exact ⟨e, c₁, by rw [EStateM.run_bind, hrun], he⟩

/-- What is read first stays at an end of input, as it `Settles`, or is refused there itself. -/
theorem bind_of_settles (h : r.Settles) (hf : ∀ a, (f a).Refuses) : (r >>= f).Refuses := by
  intro c hend
  rcases h hend with ⟨a, hrun⟩ | ⟨e, c₁, hrun, he⟩
  · rw [run_bind_of_ok hrun]
    exact hf a hend
  · exact ⟨e, c₁, by rw [EStateM.run_bind, hrun], he⟩

theorem ite {p : Prop} [Decidable p] {r' : Reading α} (h : r.Refuses) (h' : r'.Refuses) :
    (if p then r else r').Refuses := by
  split
  · exact h
  · exact h'

/-- Looking at the token under the cursor, which is an end of input. -/
theorem current_bind {f : Token → Reading β} (h : ∀ t, t.isEnd = true → (f t).Refuses) :
    (current >>= f).Refuses :=
  fun c hend => h c.current hend hend

theorem check_bind {kind : TokenKind} (hkind : kind ≠ .endOfInput) {lexeme : Option String}
    {f : Bool → Reading β} (h : (f false).Refuses) : (check kind lexeme >>= f).Refuses := by
  intro c hend
  rw [run_bind_of_ok (run_check kind lexeme), matches?_eq_false_of_isEnd hend hkind]
  exact h hend

theorem take {kind : TokenKind} (hkind : kind ≠ .endOfInput) (lexeme : Option String) :
    (take kind lexeme).Refuses :=
  .check_bind hkind (.expected _)

theorem surrounded {enter : Cursor → Cursor} {leave : Cursor → Cursor → Cursor}
    (henter : ∀ c, (enter c).current = c.current) (h : r.Refuses) :
    (surrounded enter leave r).Refuses := by
  intro c hend
  obtain ⟨e, c₁, hrun, he⟩ := h ((henter c).symm ▸ hend)
  exact ⟨e, _, run_surrounded_eq_error.2 ⟨c₁, hrun, rfl⟩, he⟩

end Refuses

namespace Settles

variable {r : Reading α} {f : α → Reading β}

theorem pure (a : α) : Settles (Pure.pure a) :=
  fun _ _ => .inl ⟨a, rfl⟩

theorem bind (h : r.Settles) (hf : ∀ a, (f a).Settles) : (r >>= f).Settles := by
  intro c hend
  rcases h hend with ⟨a, hrun⟩ | ⟨e, c₁, hrun, he⟩
  · rw [run_bind_of_ok hrun]
    exact hf a hend
  · exact .inr ⟨e, c₁, by rw [EStateM.run_bind, hrun], he⟩

theorem ite {p : Prop} [Decidable p] {r' : Reading α} (h : r.Settles) (h' : r'.Settles) :
    (if p then r else r').Settles := by
  split
  · exact h
  · exact h'

theorem advance : advance.Settles := by
  intro c hend
  have hstay : c.advance = c := by simp [Cursor.advance, hend]
  exact .inl ⟨c.current, by rw [run_advance, hstay]⟩

theorem check (kind : TokenKind) (lexeme : Option String) : (check kind lexeme).Settles :=
  fun _ _ => .inl ⟨_, run_check kind lexeme⟩

theorem take (kind : TokenKind) (lexeme : Option String) : (take kind lexeme).Settles :=
  .bind (.check kind lexeme) fun _ => .ite .advance (Refuses.expected _).settles

theorem current_bind {f : Token → Reading β} (h : ∀ t, t.isEnd = true → (f t).Settles) :
    (current >>= f).Settles :=
  fun c hend => h c.current hend hend

theorem check_bind {kind : TokenKind} (hkind : kind ≠ .endOfInput) {lexeme : Option String}
    {f : Bool → Reading β} (h : (f false).Settles) : (Reading.check kind lexeme >>= f).Settles := by
  intro c hend
  rw [run_bind_of_ok (run_check kind lexeme), matches?_eq_false_of_isEnd hend hkind]
  exact h hend

theorem repeatWithin {step : α → Reading (Option α)} (h : ∀ a, (step a).Settles)
    (rounds : List β) (a : α) : (repeatWithin step rounds a).Settles := by
  induction rounds generalizing a with
  | nil => exact .pure a
  | cons round rounds ih =>
    refine .bind (h a) fun o => ?_
    cases o with
    | none => exact .pure a
    | some b => exact ih b

theorem repeatFrom {step : α → Reading (Option α)} (h : ∀ a, (step a).Settles) (a : α) :
    (repeatFrom step a).Settles :=
  fun c hend => repeatWithin h (c.current :: c.ahead) a hend

/-- `whileSees` takes no step, as the token looked for is not there. -/
theorem whileSees {kind : TokenKind} (hkind : kind ≠ .endOfInput) (lexeme : String)
    (step : α → Reading α) (a : α) : (whileSees kind lexeme step a).Settles :=
  .repeatFrom (fun _ => .check_bind hkind (.pure _)) a

end Settles

end Reading

namespace Grammar

open Reading

variable {g : Nested}

/-! ## Expressions -/

theorem primary_refuses : (primary g).Refuses := by
  refine .current_bind fun t hend => ?_
  simp only [Token.isEnd, decide_eq_true_eq] at hend
  have hliteral : literalValue? t = none := by simp [literalValue?, hend]
  have hmark : t.is .punctuation "(" = false := by simp [Token.is, hend]
  simp only [hliteral, hend, hmark]
  exact .expected _

theorem elements_refuses {α : Type} {element : List α → Reading α} (h : (element []).Refuses) :
    (elements element).Refuses :=
  .check_bind (by simp) (.bind h _)

theorem unary_refuses : (unary g).Refuses := by
  refine .current_bind fun t hend => ?_
  simp only [Token.isEnd, decide_eq_true_eq] at hend
  have hnegation : negation? t = none := by simp [negation?, Token.is, hend]
  rw [hnegation]
  exact .bind primary_refuses _

theorem climb_refuses {operand : Reading Expr} (h : operand.Refuses) (levels : Nat) (least : Int) :
    (climb operand levels least).Refuses := by
  cases levels with
  | zero => exact h
  | succ levels => exact .bind h _

theorem expression_refuses : (expression g).Refuses :=
  .bind (.bind (.bind (climb_refuses unary_refuses _ _) _) _) _

/-- `operation` finds none at an end of input. -/
theorem operation_settles (least : Int) (operand : Int → Reading Expr) (left : Expr) :
    (operation least operand left).Settles := by
  refine .current_bind fun t hend => ?_
  simp only [Token.isEnd, decide_eq_true_eq] at hend
  have hoperation : operation? least t = none := by simp [operation?, hend]
  rw [hoperation]
  exact .pure _

/-! ## Statements -/

theorem eatMark_refuses {α : Type} (s : String) (f : Token → Reading α) :
    (eatMark s >>= f).Refuses :=
  .bind (.take (by simp) _) f

theorem eatMark_settles {α : Type} (s : String) (f : Token → Reading α) :
    (eatMark s >>= f).Settles :=
  (eatMark_refuses s f).settles

theorem block_refuses : (block g).Refuses :=
  eatMark_refuses _ _

theorem insideLoop_refuses {α : Type} {r : Reading α} (h : r.Refuses) : (insideLoop r).Refuses :=
  .surrounded (fun _ => rfl) h

theorem insideFunction_refuses {α : Type} {r : Reading α} (h : r.Refuses) :
    (insideFunction r).Refuses :=
  .surrounded (fun _ => rfl) h

/-- The brace is due before `oneMoreInBlock` tries any statement. -/
theorem oneMoreInBlock_refuses (done : List Stmt) : (oneMoreInBlock g done).Refuses := by
  refine .check_bind (by simp) (.current_bind fun t hend => ?_)
  rw [if_pos hend]
  exact .expected _

theorem oneMoreInProgram_settles (done : List Stmt) : (oneMoreInProgram g done).Settles := by
  refine .current_bind fun t hend => ?_
  rw [if_pos hend]
  exact .pure _

theorem program_settles : (program g).Settles :=
  .bind (.repeatFrom oneMoreInProgram_settles []) fun _ => .bind (.take _ _) fun _ => .pure _

theorem alternative_refuses (h : g.conditional.Refuses) : (alternative g).Refuses :=
  .bind_of_settles (.check _ _) fun _ => .ite h block_refuses

theorem parameter_refuses (name : String) (done : List String) : (parameter name done).Refuses :=
  .bind (.take (by simp) _) _

theorem conditional_refuses : (conditional g).Refuses :=
  .bind (.take (by simp) _) _

end Grammar

/-- Whether the parts of `g`, which may be nested, are refused at an end of input. -/
structure Nested.Refuses (g : Nested) : Prop where
  expression : g.expression.Refuses
  operand : g.operand.Refuses
  conditional : g.conditional.Refuses

theorem Grammar.nested_refuses (depth : Nat) : (nested depth).Refuses := by
  cases depth with
  | zero => exact ⟨.tooDeep, .tooDeep, .tooDeep⟩
  | succ depth => exact ⟨expression_refuses, unary_refuses, conditional_refuses⟩

end Scripting
