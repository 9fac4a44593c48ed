import Scripting.Proofs.Grammar.ExpressionSoundness
import Scripting.Proofs.Grammar.Opening
import Scripting.Proofs.Grammar.Unplaced

set_option autoImplicit false

/-! # The expressions of the grammar are read

Every expression of the grammar is read back from tokens that spell it, up to positions, by the
reading on any level that is not above its own: this reading `Restores` it. Two things carry this.
The token behind the expression must be one that does not `Extends` it, so each reading stops where
the expression ends; and where operations group to the left, the repetition that reads them passes
through the operation on their left side, which is the step before the last, `Expr.ReachedBy`. -/

namespace Scripting

/-! ## Levels of nesting -/

mutual

/-- How many further levels of `nested` an expression takes up. A left operand takes up none,
    however long the operation is. -/
def Expr.nesting : Expr → Nat
  | .literal _ _ => 0
  | .identifier _ _ => 0
  | .unary _ operand _ => operand.nesting + 1
  | .binary _ left right _ => max left.nesting right.nesting
  | .logical _ left right _ => max left.nesting right.nesting
  | .call callee arguments _ => max callee.nesting (Expr.nestingEach arguments)
  | .assignment _ value _ => value.nesting + 1
  | .grouping inner _ => inner.nesting + 1
  | .stray _ => 0

/-- How many further levels of nesting the arguments of a call take up. -/
def Expr.nestingEach : List Expr → Nat
  | [] => 0
  | e :: rest => max (e.nesting + 1) (Expr.nestingEach rest)

end

/-! ## Readings that give an expression back -/

/-- Whether the reading `r` gives the expression `e` back from tokens that spell it, if the token
    behind them does not go on with an expression on the level `k`. -/
def Reading.Restores (r : Reading Expr) (k : Nat) (e : Expr) : Prop :=
  ∀ ⦃c c' : Cursor⦄, c.Closed → c.Spells e.spelled c' → ¬ c'.Extends k →
    ∃ e', r.run c = .ok e' c' ∧ e'.unplaced = e.unplaced

/-- Whether the expression `e` is reached by `step`s from its first `operand` on, where the operands
    stand on the level `top`. -/
def Expr.ReachedBy (e : Expr) (top : Nat) (operand : Reading Expr)
    (step : Expr × Cursor → Expr × Cursor → Prop) : Prop :=
  ∀ ⦃c c' : Cursor⦄, c.Closed → c.Spells e.spelled c' → ¬ c'.Extends (min top (e.level + 1)) →
    ∃ first c₁ e', operand.run c = .ok first c₁ ∧
      Relation.ReflTransGen step (first, c₁) (e', c') ∧ e'.unplaced = e.unplaced

namespace Expr.ReachedBy

variable {e left : Expr} {top : Nat} {operand : Reading Expr}
  {step : Expr × Cursor → Expr × Cursor → Prop}

/-- An `operand` is reached without a step. -/
theorem refl (h : operand.Restores top e) (hlevel : top ≤ e.level) :
    e.ReachedBy top operand step := by
  intro c c' hc hspells hstop
  rw [Nat.min_eq_left (by omega)] at hstop
  obtain ⟨e', hread, hsame⟩ := h hc hspells hstop
  exact ⟨e', c', e', hread, .refl, hsame⟩

/-- A node `e` is reached by one step from its `left` side. -/
theorem snoc (hleft : left.ReachedBy top operand step) {w : Word} {rest : List Word} {b : Nat}
    (hspelled : e.spelled = left.spelled ++ w :: rest) (hb : w.binding? = some b)
    (hless : b < min top (left.level + 1))
    (hstep : ∀ {left' : Expr} {c₁ c' : Cursor}, left'.unplaced = left.unplaced → c₁.Closed →
      c₁.current.word? = some w → c₁.advance.Spells rest c' →
      ¬ c'.Extends (min top (e.level + 1)) →
      ∃ e', step (left', c₁) (e', c') ∧ e'.unplaced = e.unplaced) :
    e.ReachedBy top operand step := by
  intro c c' hc hspells hstop
  rw [hspelled] at hspells
  obtain ⟨c₁, hbefore, hbehind⟩ := hspells.of_append
  obtain ⟨hw, hrest⟩ := hbehind.of_cons
  -- the left side ends here: the word behind it binds less tightly than what it would take
  have hstop₁ : ¬ c₁.Extends (min top (left.level + 1)) :=
    fun hext => by have := (Cursor.extends_iff hw hb).1 hext; omega
  obtain ⟨first, c₀, left', hfirst, hsteps, hsame⟩ := hleft hc hbefore hstop₁
  obtain ⟨e', hlast, hsame'⟩ := hstep hsame (hbefore.closed hc) hw hrest hstop
  exact ⟨first, c₀, e', hfirst, hsteps.tail hlast, hsame'⟩

end Expr.ReachedBy

namespace Grammar

open Reading

variable {g : Nested} {e : Expr}

/-! ## Lists -/

section Lists

variable {α : Type} {element : List α → Reading α} {spelled : α → List Word}
  {same : α → α → Prop} {as : List α}

/-- Whether the elements `as` of a list are read back by `element`, each behind those before it. -/
def RestoresEach (element : List α → Reading α) (spelled : α → List Word) (same : α → α → Prop)
    (as : List α) : Prop :=
  ∀ (done : List α) ⦃rest : List α⦄ ⦃a : α⦄ ⦃read : List α⦄ ⦃c c' : Cursor⦄,
    as = done ++ a :: rest → List.Forall₂ same read done.reverse → c.Closed →
    c.Spells (spelled a) c' →
    c'.current.word? = some (.mark ",") ∨ c'.current.word? = some (.mark ")") →
    ∃ b, (element read).run c = .ok b c' ∧ same b a

/-- Behind an element comes a further one or the end of the list: a comma or a closing
    parenthesis. -/
theorem comma_or_close_of_spells {rest : List α} {c c' : Cursor}
    (hspells : c.Spells (rest.flatMap fun a => .mark "," :: spelled a) c')
    (hend : c'.current.word? = some (.mark ")")) :
    c.current.word? = some (.mark ",") ∨ c.current.word? = some (.mark ")") := by
  cases rest with
  | nil => exact .inr (hspells.eq_of_nil ▸ hend)
  | cons a rest => exact .inl hspells.of_cons.1

theorem exists_continues_oneMore (h : RestoresEach element spelled same as)
    {rest done read : List α} (has : as = done ++ rest)
    (hread : List.Forall₂ same read done.reverse) {c c' : Cursor} (hc : c.Closed)
    (hspells : c.Spells (rest.flatMap fun a => .mark "," :: spelled a) c')
    (hend : c'.current.word? = some (.mark ")")) :
    ∃ bs, Relation.ReflTransGen (Continues (.mark ",") (oneMore element)) (read, c) (bs, c') ∧
      List.Forall₂ same bs as.reverse := by
  induction rest generalizing done read c with
  | nil =>
    obtain rfl := hspells.eq_of_nil
    exact ⟨read, .refl, by simpa [has] using hread⟩
  | cons a rest ih =>
    rw [List.flatMap_cons, List.cons_append] at hspells
    obtain ⟨hcomma, hspells⟩ := hspells.of_cons
    obtain ⟨c₁, hbefore, hbehind⟩ := hspells.of_append
    have hnext := comma_or_close_of_spells hbehind hend
    obtain ⟨b, hb, hsame⟩ := h done has hread hc.advance hbefore hnext
    -- the element goes over from the rest of the list to what is done
    have has' : as = (done ++ [a]) ++ rest := by simp [has]
    have hread' : List.Forall₂ same (b :: read) (done ++ [a]).reverse := by
      simpa using ⟨hsame, hread⟩
    obtain ⟨bs, hsteps, hbs⟩ := ih has' hread' (hbefore.closed hc.advance) hbehind
    refine ⟨bs, .head ⟨hcomma, ?_, ?_⟩ hsteps, hbs⟩
    · unfold oneMore
      rw [run_bind_of_ok run_advance, run_bind_of_ok hb]
      rfl
    · exact (Cursor.Spells.cons hcomma hbefore).length_ahead_lt hc

theorem elements_complete (hopens : ∀ a ∈ as, ∃ w words, spelled a = w :: words ∧ w ≠ .mark ")")
    (h : RestoresEach element spelled same as) {c c' : Cursor} (hc : c.Closed)
    (hspells : c.Spells (commaSeparated (as.map spelled)) c')
    (hend : c'.current.word? = some (.mark ")")) :
    ∃ bs, (elements element).run c = .ok bs c' ∧ List.Forall₂ same bs as := by
  unfold elements
  rw [run_bind_of_ok (run_seesMark _)]
  cases as with
  | nil =>
    obtain rfl := hspells.eq_of_nil
    rw [if_pos (by simpa using hend)]
    exact ⟨[], rfl, .nil⟩
  | cons a rest =>
    rw [List.map_cons, commaSeparated_cons, List.flatMap_map] at hspells
    obtain ⟨c₁, hbefore, hbehind⟩ := hspells.of_append
    obtain ⟨w, words, hw, hne⟩ := hopens a List.mem_cons_self
    have hopen : c.current.word? = some w := (hw ▸ hbefore).of_cons.1
    have hnext := comma_or_close_of_spells hbehind hend
    obtain ⟨b, hb, hsame⟩ := h [] rfl .nil hc hbefore hnext
    have has : a :: rest = [a] ++ rest := rfl
    have hread : List.Forall₂ same [b] [a].reverse := by simpa using hsame
    obtain ⟨bs, hsteps, hbs⟩ :=
      exists_continues_oneMore h has hread (hbefore.closed hc) hbehind hend
    have hloop := run_whileSees_of_continues (fun _ => run_seesMark ",") hsteps (by simp [hend])
    rw [if_neg (by simpa [hopen] using hne), run_bind_of_ok hb, run_bind_of_ok hloop]
    exact ⟨bs.reverse, rfl, by simpa using List.rel_reverse hbs⟩

end Lists

/-! ## Repetitions -/

theorem call_restores (hlevel : 8 ≤ e.level)
    (h : e.ReachedBy 9 (primary g) (Continues (.mark "(") (application g))) :
    (call g).Restores 8 e := by
  intro c c' hc hspells hstop
  obtain ⟨first, c₁, e', hfirst, hsteps, hsame⟩ :=
    h hc hspells fun hext => hstop (hext.mono (by omega))
  have hother : c'.current.word? ≠ some (.mark "(") :=
    fun hw => hstop ⟨_, 8, hw, rfl, Nat.le_refl _⟩
  refine ⟨e', ?_, hsame⟩
  unfold call
  rw [run_bind_of_ok hfirst]
  exact run_whileSees_of_continues (fun _ => run_seesMark "(") hsteps hother

/-- What stands above the level of `unary` begins with no sign of negation. -/
theorem unary_restores (hwf : e.WellFormed) (hlevel : 8 ≤ e.level) (h : (call g).Restores 8 e) :
    (unary g).Restores 7 e := by
  intro c c' hc hspells hstop
  obtain ⟨e', hread, hsame⟩ := h hc hspells fun hext => hstop (hext.mono (by omega))
  refine ⟨e', ?_, hsame⟩
  obtain ⟨w, words, hfirst, hne⟩ := Expr.exists_spelled_eq_cons_of_call hwf hlevel
  have hopen : c.current.word? = some w := (hfirst ▸ hspells).of_cons.1
  have hnone : negation? c.current = none := by
    rw [Option.eq_none_iff_forall_ne_some]
    intro op hop
    have hsign := (negation?_eq_some_iff.1 hop).2
    rw [hopen, Option.some.injEq] at hsign
    exact hne _ hsign
  unfold unary
  rw [run_bind_of_ok run_current, hnone]
  exact hread

theorem climb_restores {levels : Nat} {least : Int} {k : Nat} (hk : k ≤ 7) (hleast : Admits least k)
    (hlevel : k ≤ e.level)
    (h : e.ReachedBy 7 (unary g) (Accepts (operation least (climb (unary g) levels)))) :
    (climb (unary g) (levels + 1) least).Restores k e := by
  intro c c' hc hspells hstop
  obtain ⟨first, c₁, e', hfirst, hsteps, hsame⟩ :=
    h hc hspells fun hext => hstop (hext.mono (by omega))
  have hnone : operation? least c'.current = none := by
    rw [Option.eq_none_iff_forall_ne_some]
    rintro ⟨op, p⟩ hop
    obtain ⟨hw, hp, hle⟩ := operation?_eq_some_iff.1 hop
    obtain ⟨hp1, hp4⟩ := Operator.precedence?_le hp
    exact hstop ⟨_, _, hw, Word.binding?_spelling hp, (hleast p hp1 hp4).1 hle⟩
  refine ⟨e', ?_, hsame⟩
  unfold climb
  rw [run_bind_of_ok hfirst]
  refine run_repeatFrom_of_accepts hsteps ?_
  unfold operation
  rw [run_bind_of_ok run_current, hnone]
  rfl

theorem joined_restores {op : Operator} (hop : op = .and ∨ op = .or) {operand : Reading Expr}
    (hlevel : op.level ≤ e.level)
    (h : e.ReachedBy (op.level + 1) operand
      (Continues (.keyword op.spelling) (junction op operand))) :
    (joined op operand).Restores op.level e := by
  intro c c' hc hspells hstop
  obtain ⟨first, c₁, e', hfirst, hsteps, hsame⟩ :=
    h hc hspells fun hext => hstop (hext.mono (by omega))
  have hother : c'.current.word? ≠ some (.keyword op.spelling) :=
    fun hw => hstop ⟨_, _, hw, Word.binding?_keyword hop, Nat.le_refl _⟩
  refine ⟨e', ?_, hsame⟩
  unfold joined
  rw [run_bind_of_ok hfirst]
  have hkeyword := keywordValue?_spelling hop
  exact run_whileSees_of_continues (fun _ => run_seesKeyword hkeyword) hsteps hother

/-- A token that does not go on with an expression is no `=`, so `expression` stops at it. -/
theorem expression_restores (h : (disjunction g).Restores 1 e) :
    (expression g).Restores 0 e := by
  intro c c' hc hspells hstop
  obtain ⟨e', hread, hsame⟩ := h hc hspells fun hext => hstop (hext.mono (by omega))
  have hequals : c'.current.is .operator "=" = false := by
    rw [Token.is_operator, decide_eq_false_iff_not]
    exact fun hw => hstop ⟨_, 0, hw, rfl, Nat.le_refl _⟩
  refine ⟨e', ?_, hsame⟩
  unfold expression assignment
  rw [run_bind_of_ok hread, run_bind_of_ok run_current, hequals]
  rfl

/-! ## The ladder -/

/-- What the readings on the ladder do with the expression `e`: those on its level and below it give
    it back, and the repetitions among them reach it. -/
structure Ladder (g : Nested) (e : Expr) : Prop where
  calls : 8 ≤ e.level → e.ReachedBy 9 (primary g) (Continues (.mark "(") (application g))
  negations : 7 ≤ e.level → (unary g).Restores 7 e
  operations : ∀ {levels : Nat} {least : Int} {k : Nat}, 7 ≤ levels + 1 + k → 3 ≤ k → k ≤ 7 →
    Admits least k → k ≤ e.level →
    e.ReachedBy 7 (unary g) (Accepts (operation least (climb (unary g) levels)))
  conjunctions : 2 ≤ e.level →
    e.ReachedBy 3 (binary g 1) (Continues (.keyword "and") (junction .and (binary g 1)))
  disjunctions : 1 ≤ e.level →
    e.ReachedBy 2 (conjunction g) (Continues (.keyword "or") (junction .or (conjunction g)))
  whole : (expression g).Restores 0 e

namespace Ladder

theorem climb_restores (h : Ladder g e) {levels : Nat} {least : Int} {k : Nat}
    (hlevels : 7 ≤ levels + k) (hk : 3 ≤ k) (hk' : k ≤ 7) (hleast : Admits least k)
    (hlevel : k ≤ e.level) : (climb (unary g) levels least).Restores k e := by
  cases levels with
  | zero =>
    obtain rfl : k = 7 := by omega
    exact h.negations hlevel
  | succ levels =>
    exact Grammar.climb_restores hk' hleast hlevel (h.operations hlevels hk hk' hleast hlevel)

theorem binary_restores (h : Ladder g e) (hlevel : 3 ≤ e.level) : (binary g 1).Restores 3 e :=
  h.climb_restores (by decide) (by omega) (by omega) (fun p _ _ => by omega) hlevel

theorem conjunction_restores (h : Ladder g e) (hlevel : 2 ≤ e.level) :
    (conjunction g).Restores 2 e :=
  joined_restores (.inl rfl) hlevel (h.conjunctions hlevel)

theorem disjunction_restores (h : Ladder g e) (hlevel : 1 ≤ e.level) :
    (disjunction g).Restores 1 e :=
  joined_restores (.inr rfl) hlevel (h.disjunctions hlevel)

/-! What holds on one level holds on those below it: the reading there takes the expression for its
first operand and finds nothing behind it that it would go on with. -/

theorem of_assignment (hlevel : e.level = 0) (h : (expression g).Restores 0 e) : Ladder g e where
  calls hle := by omega
  negations hle := by omega
  operations _ _ _ _ hle := by omega
  conjunctions hle := by omega
  disjunctions hle := by omega
  whole := h

section Down

variable
  (calls : 8 ≤ e.level → e.ReachedBy 9 (primary g) (Continues (.mark "(") (application g)))
  (negations : 7 ≤ e.level → (unary g).Restores 7 e)
  (operations : ∀ {levels : Nat} {least : Int} {k : Nat}, 7 ≤ levels + 1 + k → 3 ≤ k → k ≤ 7 →
    Admits least k → k ≤ e.level →
    e.ReachedBy 7 (unary g) (Accepts (operation least (climb (unary g) levels))))
  (conjunctions : 2 ≤ e.level →
    e.ReachedBy 3 (binary g 1) (Continues (.keyword "and") (junction .and (binary g 1))))

include calls negations operations conjunctions in
theorem of_disjunctions (hlevel : 1 ≤ e.level)
    (h : e.ReachedBy 2 (conjunction g) (Continues (.keyword "or") (junction .or (conjunction g)))) :
    Ladder g e where
  calls := calls
  negations := negations
  operations := operations
  conjunctions := conjunctions
  disjunctions _ := h
  whole := expression_restores (joined_restores (.inr rfl) hlevel h)

include calls negations operations in
theorem of_conjunctions (hlevel : 2 ≤ e.level)
    (h : e.ReachedBy 3 (binary g 1) (Continues (.keyword "and") (junction .and (binary g 1)))) :
    Ladder g e :=
  of_disjunctions calls negations operations (fun _ => h) (by omega)
    (.refl (joined_restores (.inl rfl) hlevel h) hlevel)

include calls negations in
theorem of_operations (hlevel : 3 ≤ e.level)
    (h : ∀ {levels : Nat} {least : Int} {k : Nat}, 7 ≤ levels + 1 + k → 3 ≤ k → k ≤ 7 →
      Admits least k → k ≤ e.level →
      e.ReachedBy 7 (unary g) (Accepts (operation least (climb (unary g) levels)))) :
    Ladder g e := by
  have hleast : Admits 1 3 := fun p _ _ => by omega
  have hread : (binary g 1).Restores 3 e :=
    Grammar.climb_restores (by omega) hleast hlevel
      (h (by omega) (Nat.le_refl 3) (by omega) hleast hlevel)
  exact of_conjunctions calls negations h (by omega) (.refl hread hlevel)

include calls in
theorem of_negations (hlevel : 7 ≤ e.level) (h : (unary g).Restores 7 e) : Ladder g e :=
  of_operations calls (fun _ => h) (by omega) fun _ _ _ _ _ => .refl h hlevel

theorem of_calls (hwf : e.WellFormed) (hlevel : 8 ≤ e.level)
    (h : e.ReachedBy 9 (primary g) (Continues (.mark "(") (application g))) : Ladder g e :=
  of_negations (fun _ => h) (by omega) (unary_restores hwf hlevel (call_restores hlevel h))

theorem of_primary (hwf : e.WellFormed) (hlevel : 9 ≤ e.level) (h : (primary g).Restores 9 e) :
    Ladder g e :=
  of_calls hwf (by omega) (.refl h hlevel)

end Down

end Ladder

/-! ## Nodes -/

theorem primary_restores_literal (value : Value) (position : Position) :
    (primary g).Restores 9 (.literal value position) := by
  intro c c' hc hspells _
  obtain ⟨hw, rfl⟩ := hspells.eq_of_single
  refine ⟨.literal value c.current.position, ?_, rfl⟩
  unfold primary
  rw [run_bind_of_ok run_current, Token.literalValue?_eq_some_iff.2 hw]
  rfl

theorem primary_restores_identifier (name : String) (position : Position) :
    (primary g).Restores 9 (.identifier name position) := by
  intro c c' hc hspells _
  obtain ⟨hw, rfl⟩ := hspells.eq_of_single
  obtain ⟨hkind, rfl⟩ := Token.word?_eq_name_iff.1 hw
  refine ⟨.identifier c.current.lexeme c.current.position, ?_, rfl⟩
  unfold primary
  rw [run_bind_of_ok run_current, Token.literalValue?_eq_none hw (by simp)]
  simp only [hkind, if_true]
  rfl

theorem primary_restores_grouping {inner : Expr} (h : g.expression.Restores 0 inner)
    (position : Position) : (primary g).Restores 9 (.grouping inner position) := by
  intro c c' hc hspells _
  obtain ⟨hopen, hbehind⟩ := hspells.of_cons
  obtain ⟨c₁, hinner, hlast⟩ := hbehind.of_append
  obtain ⟨hclose, rfl⟩ := hlast.eq_of_single
  obtain ⟨inner', hread, hsame⟩ := h hc.advance hinner (Cursor.not_extends hclose rfl 0)
  refine ⟨.grouping inner' c.current.position, ?_, by simp [Expr.unplaced, hsame]⟩
  have hkind : c.current.kind ≠ .identifier := by
    rw [ne_eq, Token.kind_eq_identifier_iff, hopen]
    simp
  have hmark : c.current.is .punctuation "(" = true := by rw [Token.is_mark, hopen]; rfl
  unfold primary
  rw [run_bind_of_ok run_current, Token.literalValue?_eq_none hopen (by simp)]
  simp only [hkind, hmark, if_false, if_true]
  rw [run_bind_of_ok run_advance, run_bind_of_ok hread, run_bind_of_ok (run_eatMark hclose)]
  rfl

theorem unary_restores_unary {op : Operator} (hop : op = .neg ∨ op = .not) {operand : Expr}
    (h : g.operand.Restores 7 operand) (position : Position) :
    (unary g).Restores 7 (.unary op operand position) := by
  intro c c' hc hspells hstop
  obtain ⟨hsign, hoperand⟩ := hspells.of_cons
  obtain ⟨operand', hread, hsame⟩ := h hc.advance hoperand hstop
  refine ⟨.unary op operand' c.current.position, ?_, by simp [Expr.unplaced, hsame]⟩
  unfold unary
  rw [run_bind_of_ok run_current, negation?_eq_some_iff.2 ⟨hop, hsign⟩]
  simp only
  rw [run_bind_of_ok run_advance, run_bind_of_ok hread]
  rfl

theorem arguments_restores {es : List Expr} (hwf : Expr.AllWellFormed es)
    (h : ∀ e ∈ es, g.expression.Restores 0 e) {c c' : Cursor} (hc : c.Closed)
    (hspells : c.Spells (commaSeparated (Expr.spelledEach es) ++ [.mark ")"]) c') :
    ∃ es', (arguments g).run c = .ok es' c' ∧ Expr.unplacedAll es' = Expr.unplacedAll es := by
  obtain ⟨c₁, helements, hlast⟩ := hspells.of_append
  obtain ⟨hclose, rfl⟩ := hlast.eq_of_single
  rw [Expr.spelledEach_eq_map] at helements
  have hopens : ∀ e ∈ es, ∃ w words, e.spelled = w :: words ∧ w ≠ .mark ")" := by
    intro e he
    obtain ⟨w, words, hw, hopen⟩ := Expr.exists_spelled_eq_cons (Expr.allWellFormed_iff.1 hwf e he)
    refine ⟨w, words, hw, ?_⟩
    rintro rfl
    simp [Word.OpensExpression] at hopen
  have heach : RestoresEach (fun _ => g.expression) Expr.spelled
      (fun e' e => e'.unplaced = e.unplaced) es := by
    rintro done rest e read c c' rfl _ hc hspells (hcomma | hclose)
    · exact h e (by simp) hc hspells (Cursor.not_extends hcomma rfl 0)
    · exact h e (by simp) hc hspells (Cursor.not_extends hclose rfl 0)
  obtain ⟨es', hread, hsame⟩ := elements_complete hopens heach hc helements hclose
  refine ⟨es', ?_, ?_⟩
  · unfold arguments
    rw [run_bind_of_ok hread, run_bind_of_ok (run_eatMark hclose)]
    rfl
  · rw [Expr.unplacedAll_eq_map, Expr.unplacedAll_eq_map]
    exact List.forall₂_eq_eq_eq ▸ (List.forall₂_map_left_iff.2 (List.forall₂_map_right_iff.2 hsame))

theorem reachedBy_call {callee : Expr} {es : List Expr} {operand : Reading Expr}
    (hcallee : callee.ReachedBy 9 operand (Continues (.mark "(") (application g)))
    (hlevel : 8 ≤ callee.level) (hwf : Expr.AllWellFormed es)
    (hes : ∀ e ∈ es, g.expression.Restores 0 e) (position : Position) :
    (Expr.call callee es position).ReachedBy 9 operand (Continues (.mark "(") (application g)) := by
  refine hcallee.snoc (b := 8) rfl rfl (by omega) ?_
  intro callee' c₁ c' hsame hc hopen hspells _
  obtain ⟨es', hread, hsame'⟩ := arguments_restores hwf hes hc.advance hspells
  refine ⟨.call callee' es' c₁.current.position, ⟨hopen, ?_, ?_⟩, ?_⟩
  · unfold application
    rw [run_bind_of_ok run_advance, run_bind_of_ok hread]
    rfl
  · exact (Cursor.Spells.cons hopen hspells).length_ahead_lt hc
  · simp [Expr.unplaced, hsame, hsame']

theorem reachedBy_binary {op : Operator} {p : Nat} (hp : op.precedence? = some p)
    {left right : Expr} (hleft : Ladder g left) (hright : Ladder g right)
    (hleftLevel : op.level ≤ left.level) (hrightLevel : op.level < right.level)
    (position : Position) {levels : Nat} {least : Int} {k : Nat} (hlevels : 7 ≤ levels + 1 + k)
    (hk : 3 ≤ k) (hk' : k ≤ 7) (hleast : Admits least k) (hlevel : k ≤ op.level) :
    (Expr.binary op left right position).ReachedBy 7 (unary g)
      (Accepts (operation least (climb (unary g) levels))) := by
  obtain ⟨hp1, hp4⟩ : 1 ≤ p ∧ p ≤ 4 := Operator.precedence?_le hp
  rw [Operator.level_of_precedence? hp] at hleftLevel hrightLevel hlevel
  refine (hleft.operations hlevels hk hk' hleast (by omega)).snoc rfl (Word.binding?_spelling hp)
    (by omega) ?_
  intro left' c₁ c' hsame hc hw hspells hstop
  -- the right operand takes what binds more tightly than the operator, and nothing else
  have hnext : Admits (p + 1) (p + 3) := fun q _ _ => by omega
  have hstop' : ¬ c'.Extends (p + 3) := fun hext => hstop <| hext.mono <| by
    simp only [Expr.level, Operator.level_of_precedence? hp]; omega
  have hrestores : (climb (unary g) levels (p + 1)).Restores (p + 3) right :=
    hright.climb_restores (by omega) (by omega) (by omega) hnext (by omega)
  obtain ⟨right', hread, hsame'⟩ := hrestores hc.advance hspells hstop'
  refine ⟨.binary op left' right' c₁.current.position, ⟨?_, ?_⟩, ?_⟩
  · unfold operation
    rw [run_bind_of_ok run_current, operation?_eq_some_iff.2 ⟨hw, hp, (hleast p hp1 hp4).2 hlevel⟩]
    simp only
    rw [run_bind_of_ok run_advance, run_bind_of_ok hread]
    rfl
  · exact (Cursor.Spells.cons hw hspells).length_ahead_lt hc
  · simp [Expr.unplaced, hsame, hsame']

theorem reachedBy_logical {op : Operator} (hop : op = .and ∨ op = .or) {operand : Reading Expr}
    {left right : Expr}
    (hleft : left.ReachedBy (op.level + 1) operand
      (Continues (.keyword op.spelling) (junction op operand)))
    (hright : operand.Restores (op.level + 1) right) (hlevel : op.level ≤ left.level)
    (position : Position) :
    (Expr.logical op left right position).ReachedBy (op.level + 1) operand
      (Continues (.keyword op.spelling) (junction op operand)) := by
  refine hleft.snoc rfl (Word.binding?_keyword hop) (by omega) ?_
  intro left' c₁ c' hsame hc hw hspells hstop
  have hstop' : ¬ c'.Extends (op.level + 1) := by simpa [Expr.level] using hstop
  obtain ⟨right', hread, hsame'⟩ := hright hc.advance hspells hstop'
  refine ⟨.logical op left' right' c₁.current.position, ⟨hw, ?_, ?_⟩, ?_⟩
  · unfold junction
    rw [run_bind_of_ok run_advance, run_bind_of_ok hread]
    rfl
  · exact (Cursor.Spells.cons hw hspells).length_ahead_lt hc
  · simp [Expr.unplaced, hsame, hsame']

/-- The variable on the left side of an `assignment` is read as an operand at first. -/
theorem expression_restores_assignment {value : Expr} (h : g.expression.Restores 0 value)
    (name : String) (position : Position) :
    (expression g).Restores 0 (.assignment name value position) := by
  intro c c' hc hspells hstop
  obtain ⟨hname, hbehind⟩ := hspells.of_cons
  obtain ⟨hequals, hvalue⟩ := hbehind.of_cons
  have hvariable : Ladder g (.identifier name position) :=
    .of_primary trivial (Nat.le_refl 9) (primary_restores_identifier name position)
  have hstop₁ : ¬ c.advance.Extends 1 :=
    fun hext => by have := (Cursor.extends_iff hequals rfl).1 hext; omega
  have hlevel : (Expr.identifier name position).level = 9 := rfl
  obtain ⟨target, hread, hsame⟩ :=
    hvariable.disjunction_restores (by omega) hc (.single hname) hstop₁
  obtain ⟨place, rfl⟩ := Expr.exists_eq_identifier hsame
  obtain ⟨value', hread', hsame'⟩ := h hc.advance.advance hvalue hstop
  refine ⟨.assignment name value' place, ?_, by simp [Expr.unplaced, hsame']⟩
  have hsign : c.advance.current.is .operator "=" = true := by
    rw [Token.is_operator, hequals]; rfl
  unfold expression assignment
  rw [run_bind_of_ok hread, run_bind_of_ok run_current, if_pos hsign, run_bind_of_ok run_advance,
    run_bind_of_ok hread']
  rfl

/-! ## Expressions -/

mutual

/-- Every expression of the grammar stands on the `Ladder`, if its `nesting` is at most `depth`. -/
theorem ladder_of_wellFormed : ∀ {e : Expr} {depth : Nat}, e.WellFormed → e.nesting ≤ depth →
    Ladder (nested depth) e
  | .literal value position, _, hwf, _ =>
    .of_primary hwf (Nat.le_refl 9) (primary_restores_literal value position)
  | .identifier name position, _, hwf, _ =>
    .of_primary hwf (Nat.le_refl 9) (primary_restores_identifier name position)
  | .grouping inner position, 0, _, hdepth => by simp [Expr.nesting] at hdepth
  | .grouping inner position, depth + 1, hwf, hdepth => by
    have hinner := ladder_of_wellFormed (e := inner) hwf (Nat.le_of_succ_le_succ hdepth)
    exact .of_primary hwf (Nat.le_refl 9) (primary_restores_grouping hinner.whole position)
  | .call callee es position, depth, hwf, hdepth => by
    obtain ⟨hlevel, hcallee, hes⟩ := hwf
    simp only [Expr.nesting] at hdepth
    have hladder := ladder_of_wellFormed hcallee (by omega : callee.nesting ≤ depth)
    have hread := expression_restores_of_mem hes (by omega : Expr.nestingEach es ≤ depth)
    exact .of_calls ⟨hlevel, hcallee, hes⟩ (Nat.le_refl 8)
      (reachedBy_call (hladder.calls hlevel) hlevel hes hread position)
  | .unary op operand position, 0, _, hdepth => by simp [Expr.nesting] at hdepth
  | .unary op operand position, depth + 1, hwf, hdepth => by
    obtain ⟨hop, hlevel, hoperand⟩ := hwf
    have hladder := ladder_of_wellFormed hoperand (Nat.le_of_succ_le_succ hdepth)
    have hnode : (Expr.unary op operand position).level = 7 := rfl
    exact .of_negations (fun hle => by omega) (by omega)
      (unary_restores_unary hop (hladder.negations hlevel) position)
  | .binary op left right position, depth, hwf, hdepth => by
    obtain ⟨hop, hleftLevel, hrightLevel, hleft, hright⟩ := hwf
    obtain ⟨p, hp⟩ := Option.isSome_iff_exists.1 hop
    simp only [Expr.nesting] at hdepth
    have hleftLadder := ladder_of_wellFormed hleft (by omega : left.nesting ≤ depth)
    have hrightLadder := ladder_of_wellFormed hright (by omega : right.nesting ≤ depth)
    have hnode : (Expr.binary op left right position).level = p + 2 :=
      Operator.level_of_precedence? hp
    obtain ⟨hp1, hp4⟩ : 1 ≤ p ∧ p ≤ 4 := Operator.precedence?_le hp
    exact .of_operations (fun hle => by omega) (fun hle => by omega) (by omega)
      (reachedBy_binary hp hleftLadder hrightLadder hleftLevel hrightLevel position)
  | .logical .and left right position, depth, hwf, hdepth => by
    obtain ⟨-, hleftLevel, hrightLevel, hleft, hright⟩ := hwf
    simp only [Expr.nesting] at hdepth
    have hleftLadder := ladder_of_wellFormed hleft (by omega : left.nesting ≤ depth)
    have hrightLadder := ladder_of_wellFormed hright (by omega : right.nesting ≤ depth)
    have hnode : (Expr.logical .and left right position).level = 2 := rfl
    exact .of_conjunctions (fun hle => by omega) (fun hle => by omega) (fun _ _ _ _ hle => by omega)
      (Nat.le_refl 2) (reachedBy_logical (.inl rfl) (hleftLadder.conjunctions hleftLevel)
        (hrightLadder.binary_restores hrightLevel) hleftLevel position)
  | .logical .or left right position, depth, hwf, hdepth => by
    obtain ⟨-, hleftLevel, hrightLevel, hleft, hright⟩ := hwf
    simp only [Expr.nesting] at hdepth
    have hleftLadder := ladder_of_wellFormed hleft (by omega : left.nesting ≤ depth)
    have hrightLadder := ladder_of_wellFormed hright (by omega : right.nesting ≤ depth)
    have hnode : (Expr.logical .or left right position).level = 1 := rfl
    exact .of_disjunctions (fun hle => by omega) (fun hle => by omega) (fun _ _ _ _ hle => by omega)
      (fun hle => by omega) (Nat.le_refl 1)
      (reachedBy_logical (.inr rfl) (hleftLadder.disjunctions hleftLevel)
        (hrightLadder.conjunction_restores hrightLevel) hleftLevel position)
  | .assignment name value position, 0, _, hdepth => by simp [Expr.nesting] at hdepth
  | .assignment name value position, depth + 1, hwf, hdepth => by
    have hvalue := ladder_of_wellFormed (e := value) hwf (Nat.le_of_succ_le_succ hdepth)
    exact .of_assignment rfl (expression_restores_assignment hvalue.whole name position)
  | .stray _, _, hwf, _ => hwf.elim

/-- The arguments of a call are read one level further in. -/
theorem expression_restores_of_mem : ∀ {es : List Expr} {depth : Nat}, Expr.AllWellFormed es →
    Expr.nestingEach es ≤ depth → ∀ e ∈ es, (nested depth).expression.Restores 0 e
  | [], _, _, _ => by simp
  | e :: rest, depth, hwf, hdepth => by
    obtain ⟨hfirst, hrest⟩ := hwf
    simp only [Expr.nestingEach] at hdepth
    intro a ha
    rcases List.mem_cons.1 ha with heq | ha
    · rw [heq]
      cases depth with
      | zero => omega
      | succ depth => exact (ladder_of_wellFormed hfirst (by omega : e.nesting ≤ depth)).whole
    · exact expression_restores_of_mem hrest (by omega : Expr.nestingEach rest ≤ depth) a ha

end

end Grammar

end Scripting
