import Scripting.Grammar.Statement
import Scripting.Proofs.Evaluation.CutShort

set_option autoImplicit false

/-! # Readings that are cut short

A reading whose room for nesting is used up, `Refusal.tooDeep`, is cut short there: no production
takes that up, and the counts of loops and functions are restored on the way out as on every other
way. So it matters to no other end of a reading what there is beyond the levels that it has room
for. -/

namespace Scripting

/-- Whether the reading `r` does the same as `r'`, or else is cut short for want of levels. -/
def Reading.CutShort {α : Type} (r r' : Reading α) : Prop :=
  Scripting.CutShort .tooDeep (fun _ _ => True) r r'

/-- Whether the parts in `g`, which may be nested, are those of `g'`, or are cut short. -/
structure Nested.CutShort (g g' : Nested) : Prop where
  expression : g.expression.CutShort g'.expression
  operand : g.operand.CutShort g'.operand
  statement : g.statement.CutShort g'.statement
  conditional : g.conditional.CutShort g'.conditional

namespace Reading

variable {α β : Type} {r r' : Reading α}

namespace CutShort

theorem same (r : Reading α) : r.CutShort r :=
  Scripting.CutShort.refl (.any r)

theorem tooDeep (r : Reading α) : (throw .tooDeep : Reading α).CutShort r :=
  Scripting.CutShort.throw (.any r)

theorem bind {f f' : α → Reading β} (h : r.CutShort r') (hf : ∀ a, (f a).CutShort (f' a)) :
    (r >>= f).CutShort (r' >>= f') :=
  Scripting.CutShort.bind h hf

theorem ite {p : Prop} [Decidable p] {s s' : Reading α} (h : r.CutShort r')
    (h' : s.CutShort s') : (if p then r else s).CutShort (if p then r' else s') := by
  split
  · exact h
  · exact h'

/-- A reading `r` in front of which the same is read. -/
theorem behind {f f' : α → Reading β} (r : Reading α) (hf : ∀ a, (f a).CutShort (f' a)) :
    (r >>= f).CutShort (r >>= f') :=
  (same r).bind hf

theorem guard {p : Prop} [Decidable p] (stop : Reading β) (h : r.CutShort r') :
    (if p then stop >>= fun _ => r else r).CutShort (if p then stop >>= fun _ => r' else r') :=
  .ite (.behind stop fun _ => h) h

theorem repeatWithin {step step' : α → Reading (Option α)}
    (h : ∀ a, (step a).CutShort (step' a)) (rounds : List β) (a : α) :
    (repeatWithin step rounds a).CutShort (repeatWithin step' rounds a) := by
  induction rounds generalizing a with
  | nil => exact same _
  | cons round rounds ih =>
    refine (h a).bind fun o => ?_
    cases o with
    | none => exact same _
    | some b => exact ih b

theorem repeatFrom {step step' : α → Reading (Option α)}
    (h : ∀ a, (step a).CutShort (step' a)) (a : α) :
    (repeatFrom step a).CutShort (repeatFrom step' a) where
  ends c := Scripting.CutShort.ends (repeatWithin h (c.current :: c.ahead) a) c
  advances := .any _

theorem whileSees {kind : TokenKind} {lexeme : String} {step step' : α → Reading α}
    (h : ∀ a, (step a).CutShort (step' a)) (a : α) :
    (whileSees kind lexeme step a).CutShort (whileSees kind lexeme step' a) :=
  .repeatFrom (fun a => .behind _ fun _ => .ite ((h a).bind fun _ => same _) (same _)) a

/-- `leave` is applied on every way out. -/
theorem surrounded {enter : Cursor → Cursor} {leave : Cursor → Cursor → Cursor}
    (h : r.CutShort r') : (surrounded enter leave r).CutShort (surrounded enter leave r') where
  ends c := by
    simp only [Reading.surrounded, EStateM.run]
    rcases Scripting.CutShort.ends h (enter c) with hsame | ⟨c₁, hcut, -⟩
    · rw [EStateM.run, EStateM.run] at hsame
      exact .inl (by rw [hsame])
    · rw [EStateM.run] at hcut
      refine .inr ⟨leave c c₁, by rw [hcut], ?_⟩
      exact Advances.any (Reading.surrounded enter leave r') c
  advances := .any _

end CutShort

end Reading

namespace Grammar

open Reading

variable {g g' : Nested}

/-! ## Expressions -/

theorem primary_cutShort (hg : g.CutShort g') : (primary g).CutShort (primary g') := by
  refine .behind _ fun t => ?_
  split
  · exact .same _
  · exact .ite (.same _) <| .ite
      (.behind _ fun _ => hg.expression.bind fun _ => .same _) (.same _)

theorem elements_cutShort {α : Type} {element element' : List α → Reading α}
    (h : ∀ done, (element done).CutShort (element' done)) :
    (elements element).CutShort (elements element') := by
  have hmore (done : List α) : (oneMore element done).CutShort (oneMore element' done) :=
    .behind _ fun _ => (h done).bind fun _ => .same _
  refine .behind _ fun _ => .ite (.same _) ?_
  exact (h []).bind fun first => (CutShort.whileSees hmore [first]).bind fun _ => .same _

theorem call_cutShort (hg : g.CutShort g') : (call g).CutShort (call g') := by
  have harguments : (arguments g).CutShort (arguments g') :=
    (elements_cutShort fun _ => hg.expression).bind fun _ => .same _
  have happlication (callee : Expr) : (application g callee).CutShort (application g' callee) :=
    .behind _ fun _ => harguments.bind fun _ => .same _
  exact (primary_cutShort hg).bind fun callee => .whileSees happlication callee

theorem unary_cutShort (hg : g.CutShort g') : (unary g).CutShort (unary g') := by
  refine .behind _ fun t => ?_
  split
  · exact .behind _ fun _ => hg.operand.bind fun _ => .same _
  · exact call_cutShort hg

theorem climb_cutShort {operand operand' : Reading Expr} (h : operand.CutShort operand')
    (levels : Nat) (least : Int) :
    (climb operand levels least).CutShort (climb operand' levels least) := by
  induction levels generalizing least with
  | zero => exact h
  | succ levels ih =>
    refine h.bind fun first => .repeatFrom (fun left => .behind _ fun t => ?_) first
    split
    · exact .same _
    · exact .behind _ fun _ => (ih _).bind fun _ => .same _

theorem joined_cutShort (op : Operator) {operand operand' : Reading Expr}
    (h : operand.CutShort operand') : (joined op operand).CutShort (joined op operand') := by
  have hjunction (left : Expr) : (junction op operand left).CutShort (junction op operand' left) :=
    .behind _ fun _ => h.bind fun _ => .same _
  exact h.bind fun first => .whileSees hjunction first

theorem expression_cutShort (hg : g.CutShort g') : (expression g).CutShort (expression g') := by
  have hdisjunction : (disjunction g).CutShort (disjunction g') :=
    joined_cutShort .or (joined_cutShort .and (climb_cutShort (unary_cutShort hg) _ _))
  exact hdisjunction.bind fun _ => .behind _ fun _ =>
    .ite (.behind _ fun _ => hg.expression.bind fun _ => .same _) (.same _)

/-! ## Statements -/

theorem block_cutShort (hg : g.CutShort g') : (block g).CutShort (block g') := by
  have hmore (done : List Stmt) : (oneMoreInBlock g done).CutShort (oneMoreInBlock g' done) :=
    .behind _ fun _ => .ite (.same _) <| .behind _ fun _ =>
      .ite (.same _) (hg.statement.bind fun _ => .same _)
  exact .behind _ fun _ => (CutShort.repeatFrom hmore []).bind fun _ => .same _

theorem declaration_cutShort (hg : g.CutShort g') :
    (declaration g).CutShort (declaration g') := by
  refine .behind _ fun _ => .behind _ fun _ => .guard _ <| .behind _ fun _ => .behind _ fun _ =>
    .ite ?_ (.same _)
  exact .behind _ fun _ => (expression_cutShort hg).bind fun _ => .same _

theorem conditional_cutShort (hg : g.CutShort g') :
    (conditional g).CutShort (conditional g') := by
  have halternative : (alternative g).CutShort (alternative g') :=
    .behind _ fun _ => .ite hg.conditional (block_cutShort hg)
  refine .behind _ fun _ => (expression_cutShort hg).bind fun _ => (block_cutShort hg).bind fun _ =>
    .behind _ fun _ => .ite ?_ (.same _)
  exact .behind _ fun _ => halternative.bind fun _ => .same _

theorem loop_cutShort (hg : g.CutShort g') : (loop g).CutShort (loop g') :=
  .behind _ fun _ => (expression_cutShort hg).bind fun _ =>
    (CutShort.surrounded (block_cutShort hg)).bind fun _ => .same _

theorem function_cutShort (hg : g.CutShort g') : (function g).CutShort (function g') := by
  refine .behind _ fun _ => .behind _ fun _ => .guard _ <| .behind _ fun name => .behind _ fun _ =>
    .behind _ fun _ => .behind _ fun _ => ?_
  exact (CutShort.surrounded (block_cutShort hg)).bind fun _ => .same _

theorem result_cutShort (hg : g.CutShort g') : (result g).CutShort (result g') := by
  refine .behind _ fun _ => .behind _ fun _ => .guard _ <| .behind _ fun _ => .behind _ fun _ =>
    .ite (.same _) ?_
  exact (expression_cutShort hg).bind fun _ => .same _

theorem expressionStatement_cutShort (hg : g.CutShort g') :
    (expressionStatement g).CutShort (expressionStatement g') :=
  .behind _ fun _ => (expression_cutShort hg).bind fun _ => .same _

theorem statement_cutShort (hg : g.CutShort g') : (statement g).CutShort (statement g') := by
  have hprint : (printStatement g).CutShort (printStatement g') :=
    .behind _ fun _ => (expression_cutShort hg).bind fun _ => .same _
  have hkeyword (keyword : String) :
      (keywordStatement g keyword).CutShort (keywordStatement g' keyword) := by
    unfold keywordStatement
    split
    · exact declaration_cutShort hg
    · exact function_cutShort hg
    · exact hprint
    · exact conditional_cutShort hg
    · exact loop_cutShort hg
    · exact result_cutShort hg
    · exact .same _
    · exact .same _
    · exact expressionStatement_cutShort hg
  exact .behind _ fun t => .ite (hkeyword t.lexeme)
    (.ite (block_cutShort hg) (expressionStatement_cutShort hg))

theorem program_cutShort (hg : g.CutShort g') : (program g).CutShort (program g') := by
  have hmore (done : List Stmt) : (oneMoreInProgram g done).CutShort (oneMoreInProgram g' done) :=
    .behind _ fun _ => .ite (.same _) ((statement_cutShort hg).bind fun _ => .same _)
  exact (CutShort.repeatFrom hmore []).bind fun _ => .same _

/-! ## Levels of nesting -/

/-- The parts of the grammar with room for a number of levels, and those that are read `beyond`. -/
def nestedUpTo (beyond : Nested) : Nat → Nested
  | 0 => beyond
  | depth + 1 =>
    let inner := nestedUpTo beyond depth
    { expression := expression inner
      operand := unary inner
      statement := statement inner
      conditional := conditional inner }

/-- Levels that stop where there is no room for a further one, as `nested` does, are cut short of
    levels `beyond` which something else is read. -/
theorem nested_cutShort (beyond : Nested) (depth : Nat) :
    (nested depth).CutShort (nestedUpTo beyond depth) := by
  induction depth with
  | zero => exact ⟨.tooDeep _, .tooDeep _, .tooDeep _, .tooDeep _⟩
  | succ depth ih =>
    exact {
      expression := expression_cutShort ih
      operand := unary_cutShort ih
      statement := statement_cutShort ih
      conditional := conditional_cutShort ih }

/-- Further levels of `nested` are something that is read beyond. -/
theorem nestedUpTo_nested (further depth : Nat) :
    nestedUpTo (nested further) depth = nested (further + depth) := by
  induction depth with
  | zero => rfl
  | succ depth ih => rw [nestedUpTo, ih]; rfl

end Grammar

end Scripting
