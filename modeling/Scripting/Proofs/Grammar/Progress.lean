import Scripting.Proofs.Grammar.StatementAlike

set_option autoImplicit false

/-! # Readings make progress

A reading moves its cursor forward, also one that is refused midway, and one of an expression or a
statement does not succeed without taking a token: it `Proceeds`. Every level of nesting begins
behind a token of its own, so a reading with room for more levels than there are tokens is never
`tooDeep`. Every step of a repetition takes a token as well, so the repetitions end without their
bound on rounds. -/

namespace Scripting

/-! ## Cursors further on -/

namespace Cursor

variable {c c' : Cursor}

theorem passed_advance (hc : c.Closed) (hend : c.current.isEnd = false) :
    c.advance.passed = c.passed + 1 := by
  obtain ⟨t, rest, _, hadvance⟩ := advance_of_closed hc hend
  rw [hadvance, passed, passed, List.length_cons]

/-- Every token is `passed`, under the cursor, or `ahead`. -/
theorem length_tokens (c : Cursor) : c.tokens.length = c.passed + c.ahead.length + 1 := by
  simp only [tokens, passed, List.length_append, List.length_reverse, List.length_cons]
  omega

namespace Leads

theorem closed (h : c.Leads c') (hc : c.Closed) : c'.Closed :=
  h.induct (fun _ => Closed.advance) hc

theorem tokens_eq (h : c.Leads c') : c'.tokens = c.tokens :=
  h.induct (P := fun x => x.tokens = c.tokens) (fun x hx => x.tokens_advance.trans hx) rfl

theorem passed_le (h : c.Leads c') : c.passed ≤ c'.passed :=
  h.induct (P := fun x => c.passed ≤ x.passed) (fun x hx => Nat.le_trans hx x.passed_le_advance)
    (Nat.le_refl _)

/-- The tokens `ahead` become fewer by those that are `passed`. -/
theorem passed_add_ahead (h : c.Leads c') :
    c'.passed + c'.ahead.length = c.passed + c.ahead.length := by
  have hlength : c'.tokens.length = c.tokens.length := by rw [h.tokens_eq]
  simpa only [length_tokens, Nat.add_right_cancel_iff] using hlength

end Leads

end Cursor

/-- A token with a `kind` of its own is no end of input. -/
theorem Token.isEnd_eq_false_of_is {t : Token} {kind : TokenKind} {s : String}
    (h : t.is kind s = true) (hkind : kind ≠ .endOfInput) : t.isEnd = false := by
  simp only [Token.is, Bool.and_eq_true, decide_eq_true_eq] at h
  simp [Token.isEnd, h.1, hkind]

/-! ## Progress of a reading -/

/-- How the reading `r` goes on from the cursor `c`. It moves forward over `taken` tokens at least
    if it succeeds, and over `room` tokens at least where it is `tooDeep`. -/
structure Reading.ProceedsAt {α : Type} (c : Cursor) (room taken : Nat) (r : Reading α) :
    Prop where
  accepted : ∀ ⦃a c'⦄, r.run c = .ok a c' → c.Leads c' ∧ c.passed + taken ≤ c'.passed
  refused : ∀ ⦃e c'⦄, r.run c = .error e c' →
    c.Leads c' ∧ (e = .tooDeep → c.passed + room ≤ c'.passed)

/-- Whether the reading `r` goes on so from every cursor in a closed sequence. -/
def Reading.Proceeds {α : Type} (room taken : Nat) (r : Reading α) : Prop :=
  ∀ ⦃c : Cursor⦄, c.Closed → r.ProceedsAt c room taken

namespace Reading.ProceedsAt

variable {α β : Type} {c : Cursor} {r : Reading α} {f : α → Reading β} {room k n : Nat}

theorem mono {room' k' : Nat} (h : r.ProceedsAt c room k) (hroom : room' ≤ room) (hk : k' ≤ k) :
    r.ProceedsAt c room' k' where
  accepted _ _ hread := by
    obtain ⟨hleads, htaken⟩ := h.accepted hread
    exact ⟨hleads, by omega⟩
  refused _ _ hread := by
    obtain ⟨hleads, hdeep⟩ := h.refused hread
    exact ⟨hleads, fun he => by have := hdeep he; omega⟩

theorem pure (a : α) : (Pure.pure a : Reading α).ProceedsAt c room 0 where
  accepted := by
    intro b c' h
    cases h
    exact ⟨.refl _, Nat.le_refl _⟩
  refused _ _ h := nomatch h

theorem refuseAt (v : Violation) (t : Token) :
    (Reading.refuseAt v t : Reading α).ProceedsAt c room k where
  accepted _ _ h := nomatch h
  refused := by
    intro e c' h
    rw [run_refuseAt] at h
    cases h
    exact ⟨.refl _, fun he => nomatch he⟩

theorem expected (what : Expectation) :
    (Reading.expected what : Reading α).ProceedsAt c room k where
  accepted _ _ h := nomatch h
  refused := by
    intro e c' h
    rw [run_expected] at h
    cases h
    exact ⟨.refl _, fun he => nomatch he⟩

/-- What comes behind `k` tokens has so many levels less to give. -/
theorem bind (hc : c.Closed) (h : r.ProceedsAt c room k)
    (hf : ∀ ⦃a c'⦄, c'.Closed → r.run c = .ok a c' → (f a).ProceedsAt c' (room - k) n) :
    (r >>= f).ProceedsAt c room (k + n) where
  accepted := by
    intro b c' hread
    obtain ⟨a, c₁, hr, hfa⟩ := run_bind_eq_ok.1 hread
    obtain ⟨hleads₁, htaken₁⟩ := h.accepted hr
    obtain ⟨hleads₂, htaken₂⟩ := (hf (hleads₁.closed hc) hr).accepted hfa
    exact ⟨hleads₁.trans hleads₂, by omega⟩
  refused := by
    intro e c' hread
    rw [EStateM.run_bind] at hread
    split at hread
    · rename_i a c₁ hr
      obtain ⟨hleads₁, htaken₁⟩ := h.accepted hr
      obtain ⟨hleads₂, hdeep⟩ := (hf (hleads₁.closed hc) hr).refused hread
      exact ⟨hleads₁.trans hleads₂, fun he => by have := hdeep he; omega⟩
    · rename_i hr
      cases hread
      exact h.refused hr

/-- Looking at the token under the cursor moves nothing. -/
theorem current {f : Token → Reading β} (h : (f c.current).ProceedsAt c room n) :
    (Reading.current >>= f).ProceedsAt c room n :=
  ⟨h.accepted, h.refused⟩

theorem check {kind : TokenKind} {lexeme : Option String} {f : Bool → Reading β}
    (h : (f (c.current.matches? kind lexeme)).ProceedsAt c room n) :
    (Reading.check kind lexeme >>= f).ProceedsAt c room n :=
  ⟨h.accepted, h.refused⟩

theorem advance : Reading.advance.ProceedsAt c room 0 where
  accepted := by
    intro t c' h
    cases h
    exact ⟨.step c, c.passed_le_advance⟩
  refused _ _ h := nomatch h

theorem advance_of_isEnd (hc : c.Closed) (hend : c.current.isEnd = false) :
    Reading.advance.ProceedsAt c room 1 where
  accepted := by
    intro t c' h
    cases h
    exact ⟨.step c, Nat.le_of_eq (Cursor.passed_advance hc hend).symm⟩
  refused _ _ h := nomatch h

/-- Behind a token that the cursor stands on there is room for one level less. -/
theorem advance_bind {f : Token → Reading β} (hc : c.Closed) (hend : c.current.isEnd = false)
    (hf : ∀ t, (f t).Proceeds n 0) : (Reading.advance >>= f).ProceedsAt c (n + 1) 1 := by
  have htaken : Reading.advance.ProceedsAt c (n + 1) 1 := advance_of_isEnd hc hend
  exact .bind hc htaken fun t _ hc' _ => hf t hc'

end Reading.ProceedsAt

namespace Reading.Proceeds

variable {α β : Type} {r : Reading α} {f : α → Reading β} {room k n : Nat}

theorem mono {room' k' : Nat} (h : r.Proceeds room k) (hroom : room' ≤ room) (hk : k' ≤ k) :
    r.Proceeds room' k' :=
  fun _ hc => (h hc).mono hroom hk

theorem pure (a : α) : (Pure.pure a : Reading α).Proceeds room 0 :=
  fun _ _ => .pure a

theorem refuseAt (v : Violation) (t : Token) :
    (Reading.refuseAt v t : Reading α).Proceeds room k :=
  fun _ _ => .refuseAt v t

theorem expected (what : Expectation) : (Reading.expected what : Reading α).Proceeds room k :=
  fun _ _ => .expected what

theorem tooDeep : (throw .tooDeep : Reading α).Proceeds 0 k := fun c _ => {
  accepted := fun _ _ h => nomatch h
  refused := by
    intro e c' h
    cases h
    exact ⟨.refl _, fun _ => Nat.le_refl _⟩ }

theorem ite {p : Prop} [Decidable p] {r' : Reading α} (h : r.Proceeds room k)
    (h' : r'.Proceeds room k) : (if p then r else r').Proceeds room k := by
  split
  · exact h
  · exact h'

/-- Where a reading takes a token first, there is room for one level less behind it. -/
theorem opening (h : r.Proceeds (n + 1) 1) (hf : ∀ a, (f a).Proceeds n 0) :
    (r >>= f).Proceeds (n + 1) 1 :=
  fun _ hc => .bind hc (h hc) fun a _ hc' _ => hf a hc'

/-- A reading in front takes the tokens. -/
theorem first (h : r.Proceeds room k) (hf : ∀ a, (f a).Proceeds room 0) :
    (r >>= f).Proceeds room k :=
  fun _ hc => .bind hc (h hc) fun a _ hc' _ => (hf a hc').mono (Nat.sub_le room k) (Nat.le_refl _)

/-- A reading behind takes the tokens. -/
theorem second (h : r.Proceeds room k) (hf : ∀ a, (f a).Proceeds room n) :
    (r >>= f).Proceeds room n := by
  intro c hc
  have hboth : (r >>= f).ProceedsAt c room (k + n) :=
    .bind hc (h hc) fun a _ hc' _ => (hf a hc').mono (Nat.sub_le room k) (Nat.le_refl _)
  exact hboth.mono (Nat.le_refl _) (Nat.le_add_left n k)

theorem current {f : Token → Reading β} (h : ∀ t, (f t).Proceeds room n) :
    (Reading.current >>= f).Proceeds room n :=
  fun _ hc => .current (h _ hc)

theorem get {f : Cursor → Reading β} (h : ∀ c, (f c).Proceeds room n) :
    (MonadState.get >>= f).Proceeds room n :=
  fun c hc => ⟨(h c hc).accepted, (h c hc).refused⟩

theorem check {kind : TokenKind} {lexeme : Option String} {f : Bool → Reading β}
    (h : ∀ b, (f b).Proceeds room n) : (Reading.check kind lexeme >>= f).Proceeds room n :=
  fun _ hc => .check (h _ hc)

/-- What there is `room` for, there is room for one level further in. -/
theorem inner (h : r.Proceeds (n + 1) k) : r.Proceeds n k :=
  h.mono (Nat.le_succ n) (Nat.le_refl k)

/-- A reading that may be refused before it begins. -/
theorem guard {p : Prop} [Decidable p] {stop : Reading β} (hstop : stop.Proceeds room k)
    (h : r.Proceeds room k) : (if p then stop >>= fun _ => r else r).Proceeds room k :=
  .ite (.second hstop fun _ => h) h

theorem advance : Reading.advance.Proceeds room 0 :=
  fun _ _ => .advance

theorem take {kind : TokenKind} {lexeme : Option String} (hkind : kind ≠ .endOfInput) :
    (Reading.take kind lexeme).Proceeds room 1 := by
  intro c hc
  refine .check ?_
  split
  · rename_i hmatches
    refine .advance_of_isEnd hc ?_
    simp only [Token.matches?, Bool.and_eq_true, decide_eq_true_eq] at hmatches
    simp [Token.isEnd, hmatches.1, hkind]
  · exact .expected _

theorem takeEnd : (Reading.take .endOfInput none).Proceeds room 0 :=
  .check fun _ => .ite .advance (.expected _)

/-- The counts that `enter` makes around the cursor make no difference to how far it moves. -/
theorem surrounded {enter : Cursor → Cursor} {leave : Cursor → Cursor → Cursor}
    (htakes : Cursor.TakesBack enter leave) (h : r.Proceeds room k) :
    (Reading.surrounded enter leave r).Proceeds room k := by
  intro c hc
  obtain ⟨loops, functions, henter, hleave⟩ := htakes c
  have hinner : r.ProceedsAt (c.withCounts loops functions) room k := h hc
  have hpassed {c₁ : Cursor} (hleads : (enter c).Leads c₁) : (leave c c₁).passed = c₁.passed := by
    rw [henter] at hleads
    rw [hleave c₁ hleads.loops_eq hleads.functions_eq]
    rfl
  rw [← henter] at hinner
  have hstart : (enter c).passed = c.passed := by rw [henter]; rfl
  constructor
  · intro a c' hread
    obtain ⟨c₁, hrun, rfl⟩ := run_surrounded_eq_ok.1 hread
    obtain ⟨hleads, htaken⟩ := hinner.accepted hrun
    exact ⟨hleads.of_entered htakes, by rwa [hpassed hleads, ← hstart]⟩
  · intro e c' hread
    obtain ⟨c₁, hrun, rfl⟩ := run_surrounded_eq_error.1 hread
    obtain ⟨hleads, hdeep⟩ := hinner.refused hrun
    exact ⟨hleads.of_entered htakes, by rwa [hpassed hleads, ← hstart]⟩

end Reading.Proceeds

/-! ## Repetitions -/

namespace Reading

variable {α : Type}

/-- What comes of repeating `step` from a value on, however many rounds it takes. -/
inductive Repeats (step : α → Reading (Option α)) :
    α → Cursor → EStateM.Result Refusal Cursor α → Prop
  | declined {a : α} {c c' : Cursor} (h : (step a).run c = .ok none c') :
      Repeats step a c (.ok a c')
  | refused {a : α} {c c' : Cursor} {e : Refusal} (h : (step a).run c = .error e c') :
      Repeats step a c (.error e c')
  | accepted {a b : α} {c c' : Cursor} {result : EStateM.Result Refusal Cursor α}
      (h : (step a).run c = .ok (some b) c') (hrest : Repeats step b c' result) :
      Repeats step a c result

/-- Whether the `step` of a repetition takes a token whenever it accepts. -/
def StepsForward (room : Nat) (step : α → Reading (Option α)) : Prop :=
  ∀ a ⦃c : Cursor⦄, c.Closed → (step a).ProceedsAt c room 0 ∧
    ∀ ⦃b c'⦄, (step a).run c = .ok (some b) c' → c.passed < c'.passed

/-- The step of a repetition that goes on while a token with the given `kind` and `lexeme` is under
    the cursor. -/
def onSight (kind : TokenKind) (lexeme : String) (step : α → Reading α) (a : α) :
    Reading (Option α) := do
  if ← sees kind lexeme then
    let b ← step a
    return some b
  else
    return none

namespace StepsForward

variable {step : α → Reading (Option α)} {room : Nat}

/-- A `step` that takes a token, or declines, before it does anything else. -/
theorem of_proceeds (h : ∀ a ⦃c : Cursor⦄, c.Closed → (step a).ProceedsAt c room 1 ∨
    (step a).run c = .ok none c) : StepsForward room step := by
  intro a c hc
  rcases h a hc with hproceeds | hnone
  · refine ⟨hproceeds.mono (Nat.le_refl _) (Nat.zero_le _), fun b c' hread => ?_⟩
    exact (hproceeds.accepted hread).2
  · constructor
    · constructor
      · intro o c' hread
        rw [hnone] at hread
        cases hread
        exact ⟨.refl _, Nat.le_refl _⟩
      · intro e c' hread
        rw [hnone] at hread
        cases hread
    · intro b c' hread
      rw [hnone] at hread
      cases hread

theorem inner (h : StepsForward (room + 1) step) : StepsForward room step := fun a _ hc =>
  ⟨(h a hc).1.mono (Nat.le_succ room) (Nat.le_refl 0), (h a hc).2⟩

theorem onSight {kind : TokenKind} {lexeme : String} {step : α → Reading α}
    (hkind : kind ≠ .endOfInput)
    (h : ∀ a ⦃c : Cursor⦄, c.Closed → c.current.isEnd = false → (step a).ProceedsAt c room 1) :
    StepsForward room (Reading.onSight kind lexeme step) := by
  refine of_proceeds fun a c hc => ?_
  cases hsees : c.current.matches? kind (some lexeme) with
  | true =>
    have hend : c.current.isEnd = false := by
      simp only [Token.matches?, Bool.and_eq_true, decide_eq_true_eq] at hsees
      simp [Token.isEnd, hsees.1, hkind]
    refine .inl (.check ?_)
    rw [if_pos hsees]
    exact .bind hc (h a hc hend) fun b _ _ _ => .pure (some b)
  | false =>
    refine .inr ?_
    rw [Reading.onSight, sees, run_bind_of_ok (run_check _ _), hsees]
    rfl

theorem repeatWithin {β : Type} (h : StepsForward room step) (rounds : List β) (a : α) :
    (Reading.repeatWithin step rounds a).Proceeds room 0 := by
  induction rounds generalizing a with
  | nil => exact .pure a
  | cons round rounds ih =>
    refine .second (fun _ hc => (h a hc).1) fun o => ?_
    cases o with
    | none => exact .pure a
    | some b => exact ih b

theorem repeatFrom (h : StepsForward room step) (a : α) :
    (Reading.repeatFrom step a).Proceeds room 0 := fun c hc =>
  have hwithin := h.repeatWithin (c.current :: c.ahead) a hc
  ⟨hwithin.accepted, hwithin.refused⟩

/-- Where every step takes a token, as many rounds as there are tokens are as good as no bound, so
    `repeatFrom` does what `Repeats` tells. -/
theorem repeats (h : StepsForward room step) (a : α) {c : Cursor} (hc : c.Closed) :
    Repeats step a c ((Reading.repeatFrom step a).run c) := by
  -- by induction on the rounds, of which there are more than tokens ahead at all times
  have within : ∀ (rounds : List Token) (a : α) (c : Cursor), c.Closed →
      c.ahead.length < rounds.length →
      Repeats step a c ((Reading.repeatWithin step rounds a).run c) := by
    intro rounds
    induction rounds with
    | nil => intro a c _ hlength; simp at hlength
    | cons round rounds ih =>
      intro a c hc hlength
      rw [run_repeatWithin_cons]
      obtain ⟨hproceeds, hforward⟩ := h a hc
      cases hstep : (step a).run c with
      | error e c₁ => exact .refused hstep
      | ok o c₁ =>
        cases o with
        | none => exact .declined hstep
        | some b =>
          have hleads := (hproceeds.accepted hstep).1
          have hpassed := hforward hstep
          have hahead := hleads.passed_add_ahead
          rw [List.length_cons] at hlength
          exact .accepted hstep (ih b c₁ (hleads.closed hc) (by omega))
  exact within (c.current :: c.ahead) a c hc (by simp)

end StepsForward

end Reading

/-! ## The productions -/

/-- Whether the parts of `g`, which may be nested, take tokens, and are `tooDeep` only behind `n` of
    them. -/
structure Nested.Proceeds (n : Nat) (g : Nested) : Prop where
  expression : g.expression.Proceeds n 1
  operand : g.operand.Proceeds n 1
  statement : g.statement.Proceeds n 1
  conditional : g.conditional.Proceeds n 1

namespace Grammar

open Reading

variable {g : Nested} {n : Nat}

/-- The end of a production: a mark `s`, and what is made of the parts. -/
theorem closing_proceeds {α : Type} (s : String) (a : α) :
    (do let _ ← eatMark s; return a : Reading α).Proceeds n 0 :=
  .second (.take (by decide)) fun _ => .pure a

/-! ### Expressions -/

theorem primary_proceeds (hg : g.Proceeds n) : (primary g).Proceeds (n + 1) 1 := by
  intro c hc
  refine .current ?_
  split
  · rename_i value hvalue
    exact .advance_bind hc (Token.isEnd_eq_false (Token.literalValue?_eq_some_iff.1 hvalue))
      fun _ => .pure _
  · split
    · rename_i hname
      exact .advance_bind hc (Token.isEnd_eq_false (Token.kind_eq_identifier_iff.1 hname))
        fun _ => .pure _
    · split
      · rename_i hparen
        exact .advance_bind hc (Token.isEnd_eq_false_of_is hparen (by decide)) fun _ =>
          .second hg.expression fun _ => closing_proceeds ")" _
      · exact .expected _

theorem oneMore_proceeds {α : Type} {element : List α → Reading α}
    (h : ∀ done, (element done).Proceeds n 1) (done : List α) {c : Cursor} (hc : c.Closed)
    (hend : c.current.isEnd = false) : (oneMore element done).ProceedsAt c n 1 :=
  (ProceedsAt.advance_bind hc hend fun _ => .second (h done) fun _ => .pure _).mono
    (Nat.le_succ n) (Nat.le_refl 1)

/-- The `element`s of a list, each behind a comma, are taken one by one. -/
theorem elements_stepsForward {α : Type} {element : List α → Reading α}
    (h : ∀ done, (element done).Proceeds n 1) :
    StepsForward n (onSight .punctuation "," (oneMore element)) :=
  .onSight (by decide) fun done _ hc hend => oneMore_proceeds h done hc hend

theorem elements_proceeds {α : Type} {element : List α → Reading α}
    (h : ∀ done, (element done).Proceeds n 1) : (elements element).Proceeds n 0 :=
  .check fun _ => .ite (.pure _) <| .second (h []) fun first =>
    .second ((elements_stepsForward h).repeatFrom [first]) fun _ => .pure _

theorem application_stepsForward (hg : g.Proceeds n) :
    StepsForward (n + 1) (onSight .punctuation "(" (application g)) :=
  .onSight (by decide) fun callee _ hc hend => .advance_bind hc hend fun t =>
    .second (.second (elements_proceeds fun _ => hg.expression) fun values =>
      closing_proceeds ")" values) fun _ => .pure _

theorem call_proceeds (hg : g.Proceeds n) : (call g).Proceeds (n + 1) 1 :=
  .first (primary_proceeds hg) fun callee => (application_stepsForward hg).repeatFrom callee

theorem unary_proceeds (hg : g.Proceeds n) : (unary g).Proceeds (n + 1) 1 := by
  intro c hc
  refine .current ?_
  split
  · rename_i op hop
    have hend := Token.isEnd_eq_false (negation?_eq_some_iff.1 hop).2
    exact .advance_bind hc hend fun _ => .second hg.operand fun _ => .pure _
  · exact call_proceeds hg hc

theorem operation_stepsForward {operand : Int → Reading Expr} (least : Int)
    (h : ∀ least, (operand least).Proceeds (n + 1) 1) :
    StepsForward (n + 1) (operation least operand) := by
  refine .of_proceeds fun left c hc => ?_
  cases hop : operation? least c.current with
  | none =>
    refine .inr ?_
    rw [operation, run_bind_of_ok run_current, hop]
    rfl
  | some found =>
    have hend := Token.isEnd_eq_false (operation?_eq_some_iff.1 hop).1
    refine .inl (.current ?_)
    rw [hop]
    exact .advance_bind hc hend fun _ => .second (h _).inner fun _ => .pure _

theorem climb_proceeds {operand : Reading Expr} (h : operand.Proceeds (n + 1) 1) (levels : Nat)
    (least : Int) : (climb operand levels least).Proceeds (n + 1) 1 := by
  induction levels generalizing least with
  | zero => exact h
  | succ levels ih =>
    exact .first h fun left => (operation_stepsForward least ih).repeatFrom left

theorem binary_proceeds (hg : g.Proceeds n) (least : Int) :
    (binary g least).Proceeds (n + 1) 1 :=
  climb_proceeds (unary_proceeds hg) _ least

theorem junction_stepsForward (op : Operator) {operand : Reading Expr}
    (h : operand.Proceeds (n + 1) 1) :
    StepsForward (n + 1) (onSight .keyword op.spelling (junction op operand)) :=
  .onSight (by decide) fun _ _ hc hend => .advance_bind hc hend fun _ =>
    .second h.inner fun _ => .pure _

theorem joined_proceeds (op : Operator) {operand : Reading Expr}
    (h : operand.Proceeds (n + 1) 1) : (joined op operand).Proceeds (n + 1) 1 :=
  .first h fun left => (junction_stepsForward op h).repeatFrom left

theorem conjunction_proceeds (hg : g.Proceeds n) : (conjunction g).Proceeds (n + 1) 1 :=
  joined_proceeds .and (binary_proceeds hg 1)

theorem disjunction_proceeds (hg : g.Proceeds n) : (disjunction g).Proceeds (n + 1) 1 :=
  joined_proceeds .or (conjunction_proceeds hg)

theorem expression_proceeds (hg : g.Proceeds n) : (expression g).Proceeds (n + 1) 1 := by
  refine .opening (disjunction_proceeds hg) fun target => .current fun t => .ite ?_ (.pure _)
  refine .second .advance fun _ => .second hg.expression fun value => ?_
  split
  · exact .pure _
  · exact .refuseAt _ _

/-! ### Statements -/

theorem oneMoreInBlock_stepsForward (hg : g.Proceeds n) : StepsForward n (oneMoreInBlock g) := by
  refine .of_proceeds fun done c hc => ?_
  cases hsees : c.current.matches? .punctuation (some closeBrace) with
  | true =>
    refine .inr ?_
    rw [oneMoreInBlock, sees, run_bind_of_ok (run_check _ _), hsees]
    rfl
  | false =>
    refine .inl (.check ?_)
    rw [hsees]
    exact .current <| Proceeds.ite (.expected _) (.first hg.statement fun _ => .pure _) hc

theorem block_proceeds (hg : g.Proceeds n) : (block g).Proceeds (n + 1) 1 :=
  .opening (.take (by decide)) fun _ =>
    .second ((oneMoreInBlock_stepsForward hg).repeatFrom []) fun _ => closing_proceeds _ _

theorem declaration_proceeds (hg : g.Proceeds n) : (declaration g).Proceeds (n + 1) 1 := by
  have hexpression := (expression_proceeds hg).inner
  refine .opening (.take (by decide)) fun _ => .check fun _ => .guard (.expected (k := 0) _) ?_
  refine .second .advance fun _ => .check fun _ => .ite ?_ ?_
  · exact .second .advance fun _ => .second hexpression fun _ => .second (.pure _) fun _ =>
      closing_proceeds ";" _
  · exact .second (.pure _) fun _ => closing_proceeds ";" _

theorem printStatement_proceeds (hg : g.Proceeds n) : (printStatement g).Proceeds (n + 1) 1 :=
  .opening (.take (by decide)) fun _ =>
    .second (expression_proceeds hg).inner fun _ => closing_proceeds ";" _

theorem conditional_proceeds (hg : g.Proceeds n) : (conditional g).Proceeds (n + 1) 1 := by
  have hexpression := (expression_proceeds hg).inner
  have hblock := (block_proceeds hg).inner
  have halternative : (alternative g).Proceeds n 1 :=
    .check fun _ => .ite hg.conditional hblock
  refine .opening (.take (by decide)) fun _ => .second hexpression fun _ => .second hblock fun _ =>
    .check fun _ => .ite ?_ ?_
  · exact .second .advance fun _ => .second halternative fun _ => .second (.pure _) fun _ => .pure _
  · exact .second (.pure _) fun _ => .pure _

theorem loop_proceeds (hg : g.Proceeds n) : (loop g).Proceeds (n + 1) 1 := by
  have hbody : (insideLoop (block g)).Proceeds n 1 :=
    .surrounded Cursor.takesBack_loop (block_proceeds hg).inner
  exact .opening (.take (by decide)) fun _ =>
    .second (expression_proceeds hg).inner fun _ => .second hbody fun _ => .pure _

theorem jump_proceeds (which : Jump) : (jump which).Proceeds n 1 :=
  .current fun _ => .get fun _ => .guard (.refuseAt (k := 1) _ _) <|
    .second .advance fun _ => .first (.take (by decide)) fun _ => .pure _

theorem parameter_proceeds (name : String) (done : List String) :
    (parameter name done).Proceeds n 1 :=
  .first (.take (by decide)) fun _ => .guard (.refuseAt (k := 0) _ _) (.pure _)

theorem function_proceeds (hg : g.Proceeds n) : (function g).Proceeds (n + 1) 1 := by
  have hbody : (insideFunction (block g)).Proceeds n 1 :=
    .surrounded Cursor.takesBack_function (block_proceeds hg).inner
  refine .opening (.take (by decide)) fun _ => .check fun _ => .guard (.expected (k := 0) _) ?_
  exact .second .advance fun name => .second (.take (by decide)) fun _ =>
    .second (elements_proceeds (parameter_proceeds name.lexeme)) fun _ =>
      .second (.take (by decide)) fun _ => .second hbody fun _ => .pure _

theorem result_proceeds (hg : g.Proceeds n) : (result g).Proceeds (n + 1) 1 := by
  have hclosing (value : Option Expr) (t : Token) :
      (do let _ ← eatMark ";"; return .result value t.position : Reading Stmt).Proceeds (n + 1) 1 :=
    .first (.take (by decide)) fun _ => .pure _
  refine .current fun t => .get fun _ => .guard (.refuseAt (k := 1) _ _) ?_
  refine .second .advance fun _ => .check fun _ => .ite ?_ ?_
  · exact .second (.pure _) fun _ => hclosing _ t
  · exact .second (expression_proceeds hg) fun _ => .second (.pure _) fun _ => hclosing _ t

theorem expressionStatement_proceeds (hg : g.Proceeds n) :
    (expressionStatement g).Proceeds (n + 1) 1 :=
  .current fun _ => .first (expression_proceeds hg) fun _ => closing_proceeds ";" _

theorem statement_proceeds (hg : g.Proceeds n) : (statement g).Proceeds (n + 1) 1 := by
  have hkeyword (keyword : String) : (keywordStatement g keyword).Proceeds (n + 1) 1 := by
    unfold keywordStatement
    split
    · exact declaration_proceeds hg
    · exact function_proceeds hg
    · exact printStatement_proceeds hg
    · exact conditional_proceeds hg
    · exact loop_proceeds hg
    · exact result_proceeds hg
    · exact jump_proceeds .leave
    · exact jump_proceeds .again
    · exact expressionStatement_proceeds hg
  exact .current fun t => .ite (hkeyword t.lexeme)
    (.ite (block_proceeds hg) (expressionStatement_proceeds hg))

theorem oneMoreInProgram_stepsForward (hg : g.Proceeds n) :
    StepsForward (n + 1) (oneMoreInProgram g) := by
  refine .of_proceeds fun done c hc => ?_
  cases hend : c.current.isEnd with
  | true =>
    refine .inr ?_
    rw [oneMoreInProgram, run_bind_of_ok run_current, hend]
    rfl
  | false =>
    refine .inl (.current ?_)
    rw [hend]
    exact Proceeds.first (statement_proceeds hg) (fun _ => .pure _) hc

theorem program_proceeds (hg : g.Proceeds n) : (program g).Proceeds (n + 1) 0 :=
  .second ((oneMoreInProgram_stepsForward hg).repeatFrom []) fun _ =>
    .second .takeEnd fun _ => .pure _

/-- Every level of `nested` begins behind a token of its own. -/
theorem nested_proceeds (depth : Nat) : (nested depth).Proceeds depth := by
  induction depth with
  | zero => exact ⟨.tooDeep, .tooDeep, .tooDeep, .tooDeep⟩
  | succ depth ih =>
    exact {
      expression := expression_proceeds ih
      operand := unary_proceeds ih
      statement := statement_proceeds ih
      conditional := conditional_proceeds ih }

end Grammar

/-- No tokens are nested more deeply than there are of them: `ofTokens` is not `tooDeep` where
    `depth` is their number. -/
theorem Program.lt_length_of_tooDeep {depth : Nat} {tokens : List Token}
    (h : ofTokens depth tokens = .error .tooDeep) : depth < tokens.length := by
  cases hc : Cursor.ofTokens? tokens with
  | none => simp [ofTokens, hc] at h
  | some c =>
    obtain ⟨hbehind, htokens, -, -, hclosed⟩ := Cursor.ofTokens?_eq_some_iff.1 hc
    rw [ofTokens_of_cursor hc] at h
    split at h
    · cases h
    · rename_i e c' hread
      cases h
      obtain ⟨hleads, hdeep⟩ :=
        (Grammar.program_proceeds (Grammar.nested_proceeds depth) hclosed).refused hread
      have hpassed := hdeep rfl
      have hahead := hleads.passed_add_ahead
      have hstart : c.passed = 0 := by rw [Cursor.passed, hbehind, List.length_nil]
      rw [← htokens, List.length_cons]
      omega

end Scripting
