import Scripting.Proofs.Grammar.Alongside
import Scripting.Proofs.Grammar.ExpressionSoundness

set_option autoImplicit false

/-! # Expressions read side by side

Corresponding tokens are read as corresponding expressions, production by production. The token at
which a node points is the one that its production has looked at, so the word that stands there is
known, as a `Correspondence.point` asks for it. -/

namespace Scripting

open Reading

variable {k : Correspondence} {σ : Seam} {g : Nested} {c c' : Cursor}

/-- Whether the parts of `g`, which may be nested, are read `Reading.Alike`. -/
structure Nested.Alike (k : Correspondence) (σ : Seam) (g : Nested) : Prop where
  refuses : g.Refuses
  expression : ∀ {c c' : Cursor}, c.Alongside k σ c' →
    Loose k σ (Expr.Corresponds k) g.expression g.expression c c'
  operand : ∀ {c c' : Cursor}, c.Alongside k σ c' →
    Loose k σ (Expr.Corresponds k) g.operand g.operand c c'
  statement : ∀ {c c' : Cursor}, c.Alongside k σ c' →
    Loose k σ (Stmt.Corresponds k) g.statement g.statement c c'
  conditional : ∀ {c c' : Cursor}, c.Alongside k σ c' →
    Firm k σ (Stmt.Corresponds k) g.conditional g.conditional c c'

namespace Grammar

theorem primary_alike (hg : g.Alike k σ) (hc : c.Alongside k σ c') :
    Loose k σ (Expr.Corresponds k) (primary g) (primary g) c c' := by
  have ht := hc.current
  have hliteral := ht.literal
  refine .current_bind ?_
  generalize hv : literalValue? c.current = o, hv' : literalValue? c'.current = o' at hliteral
  cases hliteral with
  | some h =>
    exact Loose.advance_bind hc (fun _ => .pure _) fun hnext => .pure hnext ⟨h, ht.place⟩
  | none =>
    refine .ite (by rw [ht.kind]) (fun hkind => ?_) fun _ => .ite (by rw [ht.is_eq]) (fun _ => ?_)
      fun _ => .expected _ hc
    · have hword := ht.word
      rw [Token.kind_eq_identifier_iff.1 hkind] at hword
      exact Loose.advance_bind hc (fun _ => .pure _) fun hnext =>
        .pure hnext ⟨ht.lexeme.symm, hword⟩
    · refine Loose.advance_bind hc (fun _ => (hg.refuses.expression.bind _).settles) fun hnext => ?_
      refine Loose.bind (hg.expression hnext) (fun _ => eatMark_settles _ _) fun he hc₁ => ?_
      exact .map (.take hc₁) fun _ => ⟨he, ht.place⟩

/-! ## Lists and calls -/

section Elements

variable {α : Type} {R : α → α → Prop}

theorem elements_alike {element : List α → Reading α}
    (ho : ∀ done, (element done).Orderly) (hr : ∀ done, (element done).Refuses)
    (h : ∀ {done done' c c'}, List.Forall₂ R done done' → c.Alongside k σ c' →
      Loose k σ R (element done) (element done') c c')
    (hc : c.Alongside k σ c') :
    Loose k σ (List.Forall₂ R) (elements element) (elements element) c c' := by
  have hmore (done : List α) (t : Token) : Orderly (do
      let a ← element done
      return a :: done) := .bind (ho done) fun _ => .pure _
  refine .check_bind hc fun _ _ => .ite .rfl (fun _ => .pure hc .nil) fun _ => ?_
  refine Loose.bind (h .nil hc)
    (fun _ => .bind (.whileSees (by simp) _ _ _) fun _ => .pure _) fun ha hc₁ => ?_
  refine .map (P := List.Forall₂ R) ?_ fun hdone => List.forall₂_reverse_iff.2 hdone
  refine Loose.whileSees (by simp) hmore (fun done _ => ((hr done).bind _).settles)
    (fun hdone hc _ hnext => ?_) (.cons ha .nil) hc₁
  exact .map (h hdone hnext) fun ha => .cons ha hdone

end Elements

theorem arguments_alike (ho : g.Orderly) (hg : g.Alike k σ) (hc : c.Alongside k σ c') :
    Loose k σ (List.Forall₂ (Expr.Corresponds k)) (arguments g) (arguments g) c c' := by
  refine Loose.bind (elements_alike (fun _ => ho.expression) (fun _ => hg.refuses.expression)
    (fun _ hc => hg.expression hc) hc) (fun _ => eatMark_settles _ _) fun hes hc₁ => ?_
  exact .map (.take hc₁) fun _ => hes

theorem call_alike (ho : g.Orderly) (hg : g.Alike k σ) (hc : c.Alongside k σ c') :
    Loose k σ (Expr.Corresponds k) (call g) (call g) c c' := by
  have hrest (callee : Expr) (t : Token) : Orderly (do
      let values ← arguments g
      return Expr.call callee values t.position) :=
    .bind (arguments_orderly ho) fun _ => .pure _
  have harguments : (arguments g).Refuses :=
    .bind (elements_refuses hg.refuses.expression) _
  refine Loose.bind (primary_alike hg hc)
    (fun _ => .whileSees (by simp) _ _ _) fun he hc₁ => ?_
  refine Loose.whileSees (by simp) hrest (fun _ _ => (harguments.bind _).settles)
    (fun {_ _ c _} he hc hparenthesis hnext => ?_) he hc₁
  have hword := hc.current.word
  rw [Token.is_mark, decide_eq_true_eq] at hparenthesis
  rw [hparenthesis] at hword
  exact .map (arguments_alike ho hg hnext) fun hes =>
    ⟨he, Expr.allCorrespond_iff.2 hes, hword⟩

/-! ## Operators -/

theorem negation?_eq {t t' : Token} (ht : k.Tokens t t') : negation? t' = negation? t := by
  simp [negation?, ht.is_eq]

theorem unary_alike (ho : g.Orderly) (hg : g.Alike k σ) (hc : c.Alongside k σ c') :
    Loose k σ (Expr.Corresponds k) (unary g) (unary g) c c' := by
  have hword := hc.current.word
  refine .current_bind ?_
  rw [negation?_eq hc.current]
  cases hop : negation? c.current with
  | none => exact call_alike ho hg hc
  | some op =>
    rw [(negation?_eq_some_iff.1 hop).2] at hword
    refine Loose.advance_bind hc (fun _ => (hg.refuses.operand.bind _).settles) fun hnext => ?_
    exact .map (hg.operand hnext) fun he => ⟨rfl, he, hword⟩

theorem operation?_eq {t t' : Token} (ht : k.Tokens t t') (least : Int) :
    operation? least t' = operation? least t := by
  simp only [operation?, ht.kind, ht.lexeme]

theorem climb_alike {operand : Reading Expr} (ho : operand.Orderly) (hr : operand.Refuses)
    (h : ∀ {c c'}, c.Alongside k σ c' → Loose k σ (Expr.Corresponds k) operand operand c c')
    (levels : Nat) (least : Int) (hc : c.Alongside k σ c') :
    Loose k σ (Expr.Corresponds k) (climb operand levels least) (climb operand levels least) c
      c' := by
  induction levels generalizing least c c' with
  | zero => exact h hc
  | succ levels ih =>
    have hright (op : Operator) (p : Int) (left : Expr) (t : Token) : Orderly (do
        let right ← climb operand levels p
        return some (Expr.binary op left right t.position)) :=
      .bind (climb_orderly ho levels p) fun _ => .pure _
    refine Loose.bind (h hc) (fun _ => .repeatFrom (operation_settles _ _) _) fun he hc₁ => ?_
    refine Loose.repeatFrom (operation_settles _ _) ?_ ?_ he hc₁
    · intro left e c c₁ hclosed hrun
      rw [operation, run_bind_of_ok run_current] at hrun
      split at hrun
      · cases hrun
      · rename_i op p hop
        have hend := Token.isEnd_eq_false (operation?_eq_some_iff.1 hop).1
        exact Loose.length_ahead_lt_of_advance (hright op _ left) hclosed hend hrun
    · intro left left' c c' hleft hc
      have hword := hc.current.word
      refine .current_bind ?_
      rw [operation?_eq hc.current]
      cases hop : operation? least c.current with
      | none => exact .pure hc .none
      | some found =>
        obtain ⟨op, p⟩ := found
        rw [(operation?_eq_some_iff.1 hop).1] at hword
        refine Loose.advance_bind hc (fun _ => ((climb_refuses hr _ _).bind _).settles)
          fun hnext => ?_
        exact .map (ih (p + 1) hnext) fun hright => .some ⟨rfl, hleft, hright, hword⟩

theorem joined_alike (op : Operator) {operand : Reading Expr} (ho : operand.Orderly)
    (hr : operand.Refuses)
    (h : ∀ {c c'}, c.Alongside k σ c' → Loose k σ (Expr.Corresponds k) operand operand c c')
    (hc : c.Alongside k σ c') :
    Loose k σ (Expr.Corresponds k) (joined op operand) (joined op operand) c c' := by
  have hrest (left : Expr) (t : Token) : Orderly (do
      let right ← operand
      return Expr.logical op left right t.position) := .bind ho fun _ => .pure _
  refine Loose.bind (h hc) (fun _ => .whileSees (by simp) _ _ _) fun he hc₁ => ?_
  refine Loose.whileSees (by simp) hrest (fun _ _ => (hr.bind _).settles)
    (fun he hc _ hnext => ?_) he hc₁
  exact .map (h hnext) fun hright => ⟨rfl, he, hright, hc.current.place⟩

theorem disjunction_alike (ho : g.Orderly) (hg : g.Alike k σ) (hc : c.Alongside k σ c') :
    Loose k σ (Expr.Corresponds k) (disjunction g) (disjunction g) c c' := by
  have hbinary : (binary g 1).Orderly := climb_orderly (unary_orderly ho) _ _
  have hrefuses : (binary g 1).Refuses := climb_refuses unary_refuses _ _
  exact joined_alike .or (joined_orderly .and hbinary) (.bind hrefuses _)
    (joined_alike .and hbinary hrefuses
      (climb_alike (unary_orderly ho) unary_refuses (unary_alike ho hg) _ _)) hc

/-- What stands on the left side of an assignment is judged alike: an `identifier` points at itself
    on both sides, and everything else is refused on both. -/
theorem target_alike {r r' : Reading Expr} (h : Loose k σ (Expr.Corresponds k) r r' c c')
    {t t' : Token} (ht : k.Tokens t t') : ∀ {e e' : Expr}, e.Corresponds k e' →
    Loose k σ (Expr.Corresponds k)
      (r >>= fun value => match e with
        | .identifier name position => return .assignment name value position
        | _ => refuseAt .assignmentTarget t)
      (r' >>= fun value => match e' with
        | .identifier name position => return .assignment name value position
        | _ => refuseAt .assignmentTarget t') c c'
  | .identifier _ _, .identifier _ _, ⟨hname, hp⟩ => .map h fun hvalue => ⟨hname, hvalue, hp⟩
  | .literal _ _, .literal _ _, _ => h.bind_refuseAt _ ht
  | .unary _ _ _, .unary _ _ _, _ => h.bind_refuseAt _ ht
  | .binary _ _ _ _, .binary _ _ _ _, _ => h.bind_refuseAt _ ht
  | .logical _ _ _ _, .logical _ _ _ _, _ => h.bind_refuseAt _ ht
  | .call _ _ _, .call _ _ _, _ => h.bind_refuseAt _ ht
  | .assignment _ _ _, .assignment _ _ _, _ => h.bind_refuseAt _ ht
  | .grouping _ _, .grouping _ _, _ => h.bind_refuseAt _ ht
  | .stray _, .stray _, _ => h.bind_refuseAt _ ht

theorem expression_alike (ho : g.Orderly) (hg : g.Alike k σ) (hc : c.Alongside k σ c') :
    Loose k σ (Expr.Corresponds k) (expression g) (expression g) c c' := by
  refine Loose.bind (disjunction_alike ho hg hc) (fun target => .current_bind fun t hend => ?_)
    fun he hc₁ => ?_
  · simp only [Token.isEnd, decide_eq_true_eq] at hend
    have hsign : t.is .operator "=" = false := by simp [Token.is, hend]
    rw [hsign]
    exact .pure _
  have ht := hc₁.current
  refine .current_bind (.ite (by rw [ht.is_eq]) (fun _ => ?_) fun _ => .pure hc₁ he)
  exact Loose.advance_bind hc₁ (fun _ => (hg.refuses.expression.bind _).settles) fun hnext =>
    target_alike (hg.expression hnext) ht he

end Grammar

end Scripting
