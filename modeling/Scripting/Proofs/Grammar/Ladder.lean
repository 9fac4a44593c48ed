import Scripting.Proofs.Grammar.Progress

set_option autoImplicit false

/-! # One loop for all levels of precedence

Operations are read by the single loop `binary`, which is told how tightly their operators must
bind. The ladder of precedence says it in another way: each `rung` takes operands of the next one
and folds the operators of its own level over them. The two agree, also where they are refused. The
loop for a level and those above it is the loop for those above, and behind it the fold over the
level itself: an operand that has been read above a level has no operator from there behind it, so
the operators that are left to the loop are those of the level. -/

namespace Scripting

/-! ## Readings and repetitions -/

namespace Reading

variable {α : Type} {step : α → Reading (Option α)} {a : α} {c : Cursor}
  {result result' : EStateM.Result Refusal Cursor α}

/-- Whether the readings `r` and `r'` come to the same from every cursor in a `Closed` sequence. -/
def Coincides (r r' : Reading α) : Prop :=
  ∀ ⦃c : Cursor⦄, c.Closed → r.run c = r'.run c

/-- `Repeats` comes to one result only. -/
theorem Repeats.unique (h : Repeats step a c result) (h' : Repeats step a c result') :
    result = result' := by
  induction h with
  | declined hstep => cases h' <;> simp_all
  | refused hstep => cases h' <;> simp_all
  | accepted hstep _ ih =>
    cases h' with
    | declined hstep' => simp [hstep] at hstep'
    | refused hstep' => simp [hstep] at hstep'
    | accepted hstep' hrest =>
      rw [hstep] at hstep'
      cases hstep'
      exact ih hrest

/-- Where a repetition ends, at `b`, its `step` declines. -/
theorem Repeats.exists_declined {b : α} {c' : Cursor} (h : Repeats step a c (.ok b c')) :
    ∃ c₁, (step b).run c₁ = .ok none c' := by
  generalize hresult : EStateM.Result.ok b c' = result at h
  induction h with
  | declined hstep => cases hresult; exact ⟨_, hstep⟩
  | refused => cases hresult
  | accepted _ _ ih => exact ih hresult

/-- Where every step takes a token, `repeatFrom` comes just to what `Repeats` tells. -/
theorem StepsForward.run_eq_iff {room : Nat} (h : StepsForward room step) (hc : c.Closed) :
    (Reading.repeatFrom step a).run c = result ↔ Repeats step a c result := by
  constructor
  · rintro rfl
    exact h.repeats a hc
  · exact (h.repeats a hc).unique

section Rounds

variable {room : Nat} {c₁ : Cursor}

theorem StepsForward.run_of_declined (h : StepsForward room step) (hc : c.Closed)
    (hstep : (step a).run c = .ok none c₁) : (Reading.repeatFrom step a).run c = .ok a c₁ :=
  (h.run_eq_iff hc).2 (.declined hstep)

theorem StepsForward.run_of_refused (h : StepsForward room step) (hc : c.Closed) {e : Refusal}
    (hstep : (step a).run c = .error e c₁) : (Reading.repeatFrom step a).run c = .error e c₁ :=
  (h.run_eq_iff hc).2 (.refused hstep)

theorem StepsForward.run_of_accepted (h : StepsForward room step) (hc : c.Closed) {b : α}
    (hstep : (step a).run c = .ok (some b) c₁) :
    (Reading.repeatFrom step a).run c = (Reading.repeatFrom step b).run c₁ := by
  have hleads := ((h a hc).1.accepted hstep).1
  exact (h.run_eq_iff hc).2 (.accepted hstep (h.repeats b (hleads.closed hc)))

end Rounds

end Reading

namespace Grammar

open Reading

/-! ## The ladder -/

/-- The operator of the `level` of precedence that a token stands for. -/
def levelOperator? (level : Nat) (t : Token) : Option Operator :=
  Operator.all.find? fun op => op.precedence? = some level && t.is .operator op.spelling

/-- An operation on what stands `left` of an operator of the `level`. -/
def levelOperation (level : Nat) (operand : Reading Expr) (left : Expr) :
    Reading (Option Expr) := do
  match levelOperator? level (← current) with
  | none => return none
  | some op =>
    let t ← advance
    let right ← operand
    return some (.binary op left right t.position)

/-- An `operand`, and as long as an operator of the `level` follows, an operation on it and one more
    operand. -/
def folded (level : Nat) (operand : Reading Expr) : Reading Expr := do
  let first ← operand
  repeatFrom (levelOperation level operand) first

/-- The operations on a `level`: those on the next one, `folded`; above the last level no binary
    operator is left. -/
def rung (g : Nested) (level : Nat) : Reading Expr :=
  if level ≤ Operator.levels then folded level (rung g (level + 1)) else unary g
termination_by Operator.levels + 1 - level

/-- Whether no operator that binds at least as tightly as `least` stands behind what `r` reads. -/
def Exhausts (least : Int) (r : Reading Expr) : Prop :=
  ∀ ⦃c : Cursor⦄, c.Closed → ∀ ⦃e c'⦄, r.run c = .ok e c' → operation? least c'.current = none

/-! ## Operators of a level -/

section Operators

variable {level : Nat} {t : Token} {op : Operator}

theorem levelOperator?_eq_some_iff :
    levelOperator? level t = some op ↔
      t.word? = some (.operator op.spelling) ∧ op.precedence? = some level := by
  constructor
  · intro h
    have hfound := List.find?_some h
    rw [Bool.and_eq_true, Token.is_operator, decide_eq_true_iff, decide_eq_true_iff] at hfound
    exact hfound.symm
  · rintro ⟨hword, hlevel⟩
    have hop : (op.precedence? = some level && t.is .operator op.spelling) = true := by
      rw [Bool.and_eq_true, Token.is_operator, decide_eq_true_iff, decide_eq_true_iff]
      exact ⟨hlevel, hword⟩
    have hmem : op ∈ Operator.all := by cases op <;> decide
    cases h : levelOperator? level t with
    | none => exact absurd hop (List.find?_eq_none.1 h op hmem)
    | some op' =>
      -- no other operator has the spelling
      have hfound := List.find?_some h
      rw [Bool.and_eq_true, Token.is_operator, decide_eq_true_iff, decide_eq_true_iff] at hfound
      have hspelling : op'.spelling = op.spelling := by
        have hsame := hfound.2.symm.trans hword
        injection hsame with hsame
        injection hsame
      have hof := Operator.ofSpelling?_spelling op'
      rw [hspelling, Operator.ofSpelling?_spelling] at hof
      exact hof.symm

/-- An operator above a `level` is one of the level or above. -/
theorem operation?_of_above {found : Operator × Nat}
    (h : operation? ((level : Int) + 1) t = some found) : operation? level t = some found := by
  obtain ⟨hword, hp, hle⟩ := operation?_eq_some_iff.1 h
  exact operation?_eq_some_iff.2 ⟨hword, hp, by omega⟩

/-- Where no operator above a `level` stands, only one of the level can. -/
theorem operation?_of_not_above (h : operation? ((level : Int) + 1) t = none) :
    operation? level t = (levelOperator? level t).map fun op => (op, level) := by
  have hlevel {op : Operator} {p : Nat} (hop : operation? level t = some (op, p)) : p = level := by
    obtain ⟨hword, hp, hle⟩ := operation?_eq_some_iff.1 hop
    by_contra hne
    have habove := operation?_eq_some_iff.2 ⟨hword, hp, (by omega : (level : Int) + 1 ≤ p)⟩
    rw [h] at habove
    cases habove
  ext ⟨op, p⟩
  rw [Option.map_eq_some_iff]
  constructor
  · intro hop
    obtain rfl := hlevel hop
    obtain ⟨hword, hp, -⟩ := operation?_eq_some_iff.1 hop
    exact ⟨op, levelOperator?_eq_some_iff.2 ⟨hword, hp⟩, rfl⟩
  · rintro ⟨op', hop, heq⟩
    cases heq
    obtain ⟨hword, hp⟩ := levelOperator?_eq_some_iff.1 hop
    exact operation?_eq_some_iff.2 ⟨hword, hp, Int.le_refl _⟩

/-- No operator binds more tightly than those of the last of `Operator.levels`. -/
theorem operation?_of_levels_lt (h : Operator.levels < level) : operation? level t = none := by
  by_contra hsome
  obtain ⟨⟨op, p⟩, hop⟩ := Option.ne_none_iff_exists'.1 hsome
  obtain ⟨-, hp, hle⟩ := operation?_eq_some_iff.1 hop
  have hlevels := (Operator.precedence?_le hp).2
  omega

/-- All operators bind at least as tightly as those of the first level. -/
theorem operation?_of_le_one {least : Int} (h : least ≤ 1) :
    operation? least t = operation? 1 t := by
  ext ⟨op, p⟩
  rw [operation?_eq_some_iff, operation?_eq_some_iff]
  constructor
  · rintro ⟨hword, hp, -⟩
    have hlevels := (Operator.precedence?_le hp).1
    exact ⟨hword, hp, by omega⟩
  · rintro ⟨hword, hp, hle⟩
    exact ⟨hword, hp, by omega⟩

end Operators

/-! ## Single operations -/

section Operations

variable {least : Int} {level p : Nat} {operand : Int → Reading Expr} {tighter : Reading Expr}
  {left : Expr} {op : Operator} {c : Cursor}

/-- The `right` operand of an operator under the cursor, and the operation. -/
def operated (op : Operator) (right : Reading Expr) (left : Expr) (t : Token) :
    Reading (Option Expr) := do
  let e ← right
  return some (.binary op left e t.position)

theorem run_operation_of_none (h : operation? least c.current = none) :
    (operation least operand left).run c = .ok none c := by
  rw [operation, run_bind_of_ok run_current, h]
  rfl

theorem run_operation_of_some (h : operation? least c.current = some (op, p)) :
    (operation least operand left).run c =
      (operated op (operand (p + 1)) left c.current).run c.advance := by
  rw [operation, run_bind_of_ok run_current, h]
  exact run_bind_of_ok run_advance

theorem run_levelOperation_of_none (h : levelOperator? level c.current = none) :
    (levelOperation level tighter left).run c = .ok none c := by
  rw [levelOperation, run_bind_of_ok run_current, h]
  rfl

theorem run_levelOperation_of_some (h : levelOperator? level c.current = some op) :
    (levelOperation level tighter left).run c =
      (operated op tighter left c.current).run c.advance := by
  rw [levelOperation, run_bind_of_ok run_current, h]
  exact run_bind_of_ok run_advance

end Operations

/-! ## The loop of a level and those above it -/

section Loops

variable {n level : Nat} {operand : Int → Reading Expr} {tighter : Reading Expr} {left : Expr}
  {c : Cursor}

theorem levelOperation_stepsForward (level : Nat) (h : tighter.Proceeds (n + 1) 1) :
    StepsForward (n + 1) (levelOperation level tighter) := by
  refine .of_proceeds fun left c hc => ?_
  cases hop : levelOperator? level c.current with
  | none => exact .inr (run_levelOperation_of_none hop)
  | some op =>
    have hend := Token.isEnd_eq_false (levelOperator?_eq_some_iff.1 hop).1
    refine .inl (.current ?_)
    rw [hop]
    exact .advance_bind hc hend fun _ => .second h.inner fun _ => .pure _

/-- The operation that follows an operator is never declined by `operated`. -/
theorem operated_accepts {op : Operator} {right : Reading Expr} {t : Token} {o : Option Expr}
    {c' : Cursor} (h : (operated op right left t).run c = .ok o c') :
    ∃ e, right.run c = .ok e c' ∧ o = some (.binary op left e t.position) := by
  obtain ⟨e, c₁, hright, h⟩ := run_bind_eq_ok.1 h
  obtain ⟨ho, rfl⟩ := run_pure_eq_ok.1 h
  exact ⟨e, hright, ho.symm⟩

/-- Where the loop of `operation`s stops, no operator follows that it could take. -/
theorem operation?_eq_none_of_run (hoperand : ∀ least, (operand least).Proceeds (n + 1) 1)
    (hc : c.Closed) {least : Int} {e : Expr} {c' : Cursor}
    (h : (repeatFrom (operation least operand) left).run c = .ok e c') :
    operation? least c'.current = none := by
  have hforward := operation_stepsForward least hoperand
  obtain ⟨c₁, hdeclined⟩ := ((hforward.run_eq_iff hc).1 h).exists_declined
  cases hop : operation? least c₁.current with
  | none =>
    rw [run_operation_of_none hop] at hdeclined
    cases hdeclined
    exact hop
  | some found =>
    rw [run_operation_of_some hop] at hdeclined
    obtain ⟨_, -, hnone⟩ := operated_accepts hdeclined
    cases hnone

/-- Where no operator from above a `level` stands, an `operation` is one of the level. -/
theorem run_operation_of_not_above
    (htighter : (operand (level + 1)).Coincides tighter)
    (hc : c.Closed) (hop : operation? ((level : Int) + 1) c.current = none) :
    (operation level operand left).run c = (levelOperation level tighter left).run c := by
  have hfound := operation?_of_not_above hop
  cases hlevel : levelOperator? level c.current with
  | none =>
    rw [hlevel] at hfound
    rw [run_levelOperation_of_none hlevel, run_operation_of_none hfound]
  | some op =>
    rw [hlevel] at hfound
    rw [run_levelOperation_of_some hlevel, run_operation_of_some hfound, operated,
      EStateM.run_bind, htighter hc.advance]
    rfl

/-- What stands behind a `levelOperation` is what stands behind its right operand. -/
theorem operation?_eq_none_of_levelOperation {least : Int}
    (hstop : Exhausts least tighter) (hc : c.Closed) {e : Expr} {c' : Cursor}
    (h : (levelOperation level tighter left).run c = .ok (some e) c') :
    operation? least c'.current = none := by
  cases hlevel : levelOperator? level c.current with
  | none =>
    rw [run_levelOperation_of_none hlevel] at h
    cases h
  | some op =>
    rw [run_levelOperation_of_some hlevel] at h
    obtain ⟨_, hright, -⟩ := operated_accepts h
    exact hstop hc.advance hright

/-- The loop for a `level` and those above it is the loop for those above it and then the fold over
    the level, if no operator from above the level stands behind the operands of the fold. -/
theorem run_repeatFrom_operation (hoperand : ∀ least, (operand least).Proceeds (n + 1) 1)
    (hproceeds : tighter.Proceeds (n + 1) 1)
    (htighter : (operand (level + 1)).Coincides tighter)
    (hstop : Exhausts (level + 1) tighter) (hc : c.Closed) :
    (repeatFrom (operation level operand) left).run c =
      (repeatFrom (operation (level + 1) operand) left >>=
        repeatFrom (levelOperation level tighter)).run c := by
  have hall := operation_stepsForward level hoperand
  have habove := operation_stepsForward (level + 1) hoperand
  have hfold := levelOperation_stepsForward level hproceeds
  -- where no operator from above the level stands, the fold begins at once
  have hbegin {left : Expr} {c : Cursor} (hc : c.Closed)
      (hop : operation? ((level : Int) + 1) c.current = none) :
      (repeatFrom (operation (level + 1) operand) left >>=
        repeatFrom (levelOperation level tighter)).run c =
        (repeatFrom (levelOperation level tighter) left).run c :=
    run_bind_of_ok (habove.run_of_declined hc (run_operation_of_none hop))
  have hrepeats := hall.repeats left hc
  generalize (repeatFrom (operation level operand) left).run c = result at hrepeats ⊢
  symm
  induction hrepeats with
  | @declined left c c' hstep =>
    cases hop : operation? ((level : Int) + 1) c.current with
    | some found =>
      rw [run_operation_of_some (operation?_of_above hop)] at hstep
      obtain ⟨_, -, hnone⟩ := operated_accepts hstep
      cases hnone
    | none =>
      rw [run_operation_of_not_above htighter hc hop] at hstep
      rw [hbegin hc hop]
      exact hfold.run_of_declined hc hstep
  | @refused left c c' e hstep =>
    cases hop : operation? ((level : Int) + 1) c.current with
    | some found =>
      rw [run_operation_of_some (operation?_of_above hop), ← run_operation_of_some hop] at hstep
      rw [EStateM.run_bind, habove.run_of_refused hc hstep]
    | none =>
      rw [run_operation_of_not_above htighter hc hop] at hstep
      rw [hbegin hc hop]
      exact hfold.run_of_refused hc hstep
  | @accepted left b c c' result hstep _ ih =>
    have hc' : c'.Closed := ((hall left hc).1.accepted hstep).1.closed hc
    cases hop : operation? ((level : Int) + 1) c.current with
    | some found =>
      rw [run_operation_of_some (operation?_of_above hop), ← run_operation_of_some hop] at hstep
      rw [EStateM.run_bind, habove.run_of_accepted hc hstep, ← EStateM.run_bind]
      exact ih hc'
    | none =>
      -- behind the right operand the fold is still all that is left
      rw [run_operation_of_not_above htighter hc hop] at hstep
      have hnone := operation?_eq_none_of_levelOperation hstop hc hstep
      rw [hbegin hc hop, hfold.run_of_accepted hc hstep, ← hbegin hc' hnone]
      exact ih hc'

end Loops

/-! ## The loop and the ladder -/

section Rungs

variable {g : Nested} {n level : Nat} {c : Cursor}

theorem rung_of_le (h : level ≤ Operator.levels) :
    rung g level = folded level (rung g (level + 1)) := by
  rw [rung, if_pos h]

theorem rung_of_lt (h : Operator.levels < level) : rung g level = unary g := by
  rw [rung, if_neg (Nat.not_le.2 h)]

theorem rung_proceeds (hg : g.Proceeds n) (level : Nat) : (rung g level).Proceeds (n + 1) 1 := by
  induction level using rung.induct with
  | case1 level hle ih =>
    rw [rung_of_le hle]
    exact .first ih fun left => (levelOperation_stepsForward level ih).repeatFrom left
  | case2 level hlt =>
    rw [rung_of_lt (Nat.not_le.1 hlt)]
    exact unary_proceeds hg

/-- A `rung` is an operand with the loop for its level and those above it behind, where the right
    operands of the loop are those of the rungs further up. -/
theorem rung_coincides (hg : g.Proceeds n) {operand : Int → Reading Expr}
    (hoperand : ∀ least, (operand least).Proceeds (n + 1) 1)
    (habove : ∀ above : Nat, level < above → (operand above).Coincides (rung g above)) :
    (rung g level).Coincides (unary g >>= repeatFrom (operation level operand)) := by
  -- by induction on the levels that are left above
  induction level using rung.induct with
  | case1 level hle ih =>
    have hnext : (rung g (level + 1)).Coincides
        (unary g >>= repeatFrom (operation ((level : Int) + 1) operand)) :=
      ih fun above hlt => habove above (by omega)
    have hstop : Exhausts (level + 1) (rung g (level + 1)) := by
      intro c hc e c' hread
      rw [hnext hc] at hread
      obtain ⟨first, c₁, hfirst, hloop⟩ := run_bind_eq_ok.1 hread
      have hleads := ((unary_proceeds hg hc).accepted hfirst).1
      exact operation?_eq_none_of_run hoperand (hleads.closed hc) hloop
    intro c hc
    rw [rung_of_le hle, folded, EStateM.run_bind, hnext hc, ← EStateM.run_bind, bind_assoc,
      EStateM.run_bind, EStateM.run_bind]
    cases hfirst : (unary g).run c with
    | error e c₁ => rfl
    | ok first c₁ =>
      have hc₁ : c₁.Closed := ((unary_proceeds hg hc).accepted hfirst).1.closed hc
      have htighter := habove (level + 1) (Nat.lt_succ_self level)
      have hloop : (repeatFrom (operation level operand) first).run c₁ = _ :=
        run_repeatFrom_operation hoperand (rung_proceeds hg (level + 1)) htighter hstop hc₁
      exact hloop.symm
  | case2 level hlt =>
    intro c hc
    rw [rung_of_lt (Nat.not_le.1 hlt), EStateM.run_bind]
    cases hfirst : (unary g).run c with
    | error e c₁ => rfl
    | ok first c₁ =>
      have hc₁ : c₁.Closed := ((unary_proceeds hg hc).accepted hfirst).1.closed hc
      have hnone : (operation level operand first).run c₁ = .ok none c₁ :=
        run_operation_of_none (operation?_of_levels_lt (Nat.not_le.1 hlt))
      exact ((operation_stepsForward level hoperand).run_of_declined hc₁ hnone).symm

/-- To `climb` from a `level` on, with room for the levels above it, is the `rung` of the level. -/
theorem climb_coincides (hg : g.Proceeds n) {levels : Nat}
    (h : Operator.levels < levels + level) :
    (climb (unary g) levels level).Coincides (rung g level) := by
  induction levels generalizing level with
  | zero =>
    intro c _
    rw [rung_of_lt (by omega), climb]
  | succ levels ih =>
    intro c hc
    have habove (above : Nat) (hlt : level < above) :
        (climb (unary g) levels above).Coincides (rung g above) := ih (by omega)
    exact (rung_coincides hg (climb_proceeds (unary_proceeds hg) levels) habove hc).symm

/-- Whatever number below the first level `binary` is asked for, the operators of all levels are
    taken. -/
theorem binary_of_le_one {least : Int} (h : least ≤ 1) : binary g least = binary g 1 := by
  have hoperation (operand : Int → Reading Expr) :
      operation least operand = operation 1 operand := by
    funext left
    simp only [operation, operation?_of_le_one h]
  simp only [binary, Operator.levels, climb, hoperation]

end Rungs

/-- To read the operations that bind at least as tightly as `least` is to read those on the `rung`
    of that number, or on the first one if there is none so low: the same tree comes of it with the
    cursor in the same place, or the same refusal there. No fold on the ladder needs its bound on
    rounds. -/
theorem binary_climbs_ladder (depth : Nat) (least : Int) {c : Cursor} (hc : c.Closed) :
    (binary (nested depth) least).run c = (rung (nested depth) (max least 1).toNat).run c ∧
      ∀ (level : Nat) (left : Expr),
        Repeats (levelOperation level (rung (nested depth) (level + 1))) left c
          ((repeatFrom (levelOperation level (rung (nested depth) (level + 1))) left).run c) := by
  have hg := nested_proceeds depth
  constructor
  · rcases Int.le_total least 1 with hle | hle
    · rw [binary_of_le_one hle, Int.max_eq_right hle]
      exact climb_coincides hg (by decide) hc
    · obtain ⟨level, rfl⟩ := Int.eq_ofNat_of_zero_le (by omega : 0 ≤ least)
      rw [Int.max_eq_left hle, Int.toNat_natCast]
      exact climb_coincides hg (by omega) hc
  · intro level left
    exact (levelOperation_stepsForward level (rung_proceeds hg (level + 1))).repeats left hc

/-- The tokens of four operations on three levels. -/
def mixedLevels : List Token :=
  [.of .identifier "a" .nil ⟨1, 1⟩, .of .operator "-" .nil ⟨1, 3⟩,
    .of .identifier "b" .nil ⟨1, 5⟩, .of .operator "*" .nil ⟨1, 7⟩,
    .of .identifier "c" .nil ⟨1, 9⟩, .of .operator "-" .nil ⟨1, 11⟩,
    .of .identifier "d" .nil ⟨1, 13⟩, .of .operator "<" .nil ⟨1, 15⟩,
    .of .identifier "e" .nil ⟨1, 17⟩, .of .endOfInput "" .nil ⟨1, 18⟩]

/-- Asked for operators of any level, the rung of the first one takes them all. -/
theorem binary_climbs_ladder_of_mixed :
    ∃ start, Cursor.ofTokens? mixedLevels = some start ∧ start.Closed ∧
      ∃ c', (rung (nested 1) 1).run start = .ok
        (.binary .lt
          (.binary .sub
            (.binary .sub (.identifier "a" ⟨1, 1⟩)
              (.binary .mul (.identifier "b" ⟨1, 5⟩) (.identifier "c" ⟨1, 9⟩) ⟨1, 7⟩) ⟨1, 3⟩)
            (.identifier "d" ⟨1, 13⟩) ⟨1, 11⟩)
          (.identifier "e" ⟨1, 17⟩) ⟨1, 15⟩) c' ∧ c'.passed = 9 := by
  obtain ⟨start, hstart⟩ : ∃ start, Cursor.ofTokens? mixedLevels = some start := ⟨_, rfl⟩
  have hclosed : start.Closed := (Cursor.ofTokens?_eq_some_iff.1 hstart).2.2.2.2
  refine ⟨start, hstart, hclosed, ?_⟩
  have hrung := (binary_climbs_ladder 1 (-7) hclosed).1
  rw [show (max (-7 : Int) 1).toNat = 1 by decide] at hrung
  rw [← hrung]
  cases hstart
  exact ⟨_, rfl, rfl⟩

end Grammar

end Scripting
