import Scripting.Proofs.Grammar.Spelling
import Scripting.Proofs.Grammar.WellFormed

set_option autoImplicit false

/-! # First words

With which words expressions and statements begin: those that are `Word.OpensExpression` and
`Word.OpensStatement`. The first word tells what is to be read: a keyword of a statement begins no
expression, and no statement begins with what can only stand behind one. -/

namespace Scripting

/-- Whether an expression can begin with a word. -/
def Word.OpensExpression : Word → Prop
  | .literal _ => True
  | .name _ => True
  | .operator s => s = "-" ∨ s = "!"
  | .mark s => s = "("
  | .keyword _ => False

/-- Whether a statement can begin with a word. -/
def Word.OpensStatement : Word → Prop
  | .keyword s =>
    s ∈ ["let", "fn", "print", "if", "while", "return", "break", "continue"]
  | .mark s => s = "(" ∨ s = Grammar.openBrace
  | w => w.OpensExpression

theorem Word.OpensExpression.opensStatement {w : Word} (h : w.OpensExpression) :
    w.OpensStatement := by
  cases w with
  | mark s => exact .inl h
  | keyword s => exact h.elim
  | _ => exact h

/-- A well-formed expression has a first word, and that `OpensExpression`. -/
theorem Expr.exists_spelled_eq_cons : ∀ {e : Expr}, e.WellFormed →
    ∃ w words, e.spelled = w :: words ∧ w.OpensExpression
  | .literal value _, _ => ⟨.literal value, [], rfl, trivial⟩
  | .identifier name _, _ => ⟨.name name, [], rfl, trivial⟩
  | .unary op operand _, h => by
    obtain ⟨hop, _⟩ := h
    refine ⟨.operator op.sign, operand.spelled, rfl, ?_⟩
    rcases hop with rfl | rfl <;> simp [Operator.sign, Word.OpensExpression]
  | .binary op left right _, h => by
    obtain ⟨_, _, _, hleft, _⟩ := h
    obtain ⟨w, words, hw, hopens⟩ := exists_spelled_eq_cons hleft
    exact ⟨w, words ++ .operator op.spelling :: right.spelled, by simp [spelled, hw], hopens⟩
  | .logical op left right _, h => by
    obtain ⟨_, _, _, hleft, _⟩ := h
    obtain ⟨w, words, hw, hopens⟩ := exists_spelled_eq_cons hleft
    exact ⟨w, words ++ .keyword op.spelling :: right.spelled, by simp [spelled, hw], hopens⟩
  | .call callee arguments _, h => by
    obtain ⟨_, hcallee, _⟩ := h
    obtain ⟨w, words, hw, hopens⟩ := exists_spelled_eq_cons hcallee
    exact ⟨w, _, by rw [spelled, hw, List.cons_append], hopens⟩
  | .assignment name value _, _ => ⟨.name name, .operator "=" :: value.spelled, rfl, trivial⟩
  | .grouping inner _, _ => ⟨.mark "(", inner.spelled ++ [.mark ")"], rfl, rfl⟩
  | .stray _, h => h.elim

/-- An expression on the level of calls or above it, which is `8`, does not begin with an
    operator. -/
theorem Expr.exists_spelled_eq_cons_of_call : ∀ {e : Expr}, e.WellFormed → 8 ≤ e.level →
    ∃ w words, e.spelled = w :: words ∧ ∀ s, w ≠ .operator s
  | .literal value _, _, _ => ⟨.literal value, [], rfl, by simp⟩
  | .identifier name _, _, _ => ⟨.name name, [], rfl, by simp⟩
  | .unary _ _ _, _, hlevel => by simp [level] at hlevel
  | .binary op _ _ _, _, hlevel => by cases op <;> simp [level, Operator.level] at hlevel
  | .logical op _ _ _, _, hlevel => by cases op <;> simp [level, Operator.level] at hlevel
  | .call callee _ _, h, _ => by
    obtain ⟨hcallee, hwf, _⟩ := h
    obtain ⟨w, words, hw, hne⟩ := exists_spelled_eq_cons_of_call hwf hcallee
    exact ⟨w, _, by rw [spelled, hw, List.cons_append], hne⟩
  | .assignment _ _ _, _, hlevel => by simp [level] at hlevel
  | .grouping inner _, _, _ => ⟨.mark "(", inner.spelled ++ [.mark ")"], rfl, by simp⟩
  | .stray _, h, _ => h.elim

/-- A well-formed statement has a first word, and that `OpensStatement`. -/
theorem Stmt.exists_spelled_eq_cons {w : Setting} : ∀ {s : Stmt}, s.WellFormed w →
    ∃ first words, s.spelled = first :: words ∧ first.OpensStatement
  | .expression e _, h => by
    obtain ⟨first, words, hfirst, hopens⟩ := Expr.exists_spelled_eq_cons (e := e) h
    exact ⟨first, words ++ [.mark ";"], by simp [spelled, hfirst], hopens.opensStatement⟩
  | .print _ _, _ => ⟨.keyword "print", _, rfl, by simp [Word.OpensStatement]⟩
  | .declaration _ _ _, _ => ⟨.keyword "let", _, rfl, by simp [Word.OpensStatement]⟩
  | .block _ _, _ => ⟨.mark Grammar.openBrace, _, rfl, .inr rfl⟩
  | .conditional _ _ _ _, _ => ⟨.keyword "if", _, rfl, by simp [Word.OpensStatement]⟩
  | .loop _ _ _, _ => ⟨.keyword "while", _, rfl, by simp [Word.OpensStatement]⟩
  | .function _ _ _ _, _ => ⟨.keyword "fn", _, rfl, by simp [Word.OpensStatement]⟩
  | .result _ _, _ => ⟨.keyword "return", _, rfl, by simp [Word.OpensStatement]⟩
  | .jump which _, _ => by
    refine ⟨.keyword which.keyword, [.mark ";"], rfl, ?_⟩
    cases which <;> simp [Word.OpensStatement, Jump.keyword]
  | .stray _ _, h => h.elim

end Scripting
