import Mathlib.Logic.Relation
import Scripting.Proofs.Grammar.Spelling
import Scripting.Proofs.Grammar.WellFormed

set_option autoImplicit false

/-! # Passages of a reading

What a `Reading` does to its cursor. A reading that succeeds passes a stretch of tokens, whose words
are what it has read, `Cursor.Spells`; a cursor in a sequence that is `Closed` by an end of input
can always move on to where it stops. Two facts about `repeatFrom` replace its bound on rounds: an
invariant of the step holds where the repetition ends, and there the step declines; and a chain of
accepted steps up to a declining one is what the repetition takes. -/

namespace Scripting

/-! ## Cursors in a closed sequence -/

namespace Cursor

/-- Whether the tokens of `c` close with an end of input. -/
def Closed (c : Cursor) : Prop :=
  (c.ahead.getLastD c.current).isEnd = true

/-- The cursor `c` with other counts of `loops` and `functions` around it. -/
def withCounts (c : Cursor) (loops functions : Nat) : Cursor :=
  { c with loops, functions }

/-- The `Setting` that the counts of `c` stand for. -/
def setting (c : Cursor) : Setting :=
  ⟨decide (c.loops ≠ 0), decide (c.functions ≠ 0)⟩

/-- On a token that is no end of input `advance` has a further token to move to. -/
theorem advance_of_closed {c : Cursor} (hc : c.Closed) (hend : c.current.isEnd = false) :
    ∃ t rest, c.ahead = t :: rest ∧
      c.advance = { c with behind := c.current :: c.behind, current := t, ahead := rest } := by
  cases hahead : c.ahead with
  | nil => simp [Closed, hahead, hend] at hc
  | cons t rest => exact ⟨t, rest, rfl, by simp [advance, hend, hahead]⟩

theorem Closed.advance {c : Cursor} (hc : c.Closed) : c.advance.Closed := by
  unfold Cursor.advance
  split
  · exact hc
  · split
    · exact hc
    · rename_i t rest hahead
      rw [Closed, hahead, List.getLastD_cons] at hc
      exact hc

theorem advance_withCounts (c : Cursor) (loops functions : Nat) :
    (c.withCounts loops functions).advance = c.advance.withCounts loops functions := by
  cases hend : c.current.isEnd <;> cases hahead : c.ahead <;>
    simp [advance, withCounts, hend, hahead]

theorem setting_advance (c : Cursor) : c.advance.setting = c.setting := by
  simp [setting]

/-- Whether `enter` changes nothing of a cursor but its counts, and `leave` gives it the counts from
    before `enter` back. It does so for any cursor that still has the counts that `enter` has
    made. -/
def TakesBack (enter : Cursor → Cursor) (leave : Cursor → Cursor → Cursor) : Prop :=
  ∀ c, ∃ loops functions, enter c = c.withCounts loops functions ∧
    ∀ c₁ : Cursor, c₁.loops = loops → c₁.functions = functions →
      leave c c₁ = c₁.withCounts c.loops c.functions

theorem takesBack_loop : TakesBack enterLoop fun _ => leaveLoop := by
  refine fun c => ⟨c.loops + 1, c.functions, rfl, fun c₁ hloops hfunctions => ?_⟩
  simp only [leaveLoop, withCounts, hloops, hfunctions, Nat.add_sub_cancel]

theorem takesBack_function : TakesBack enterFunction fun c => leaveFunction c.loops := by
  refine fun c => ⟨0, c.functions + 1, rfl, fun c₁ _ hfunctions => ?_⟩
  simp only [leaveFunction, withCounts, hfunctions, Nat.add_sub_cancel]

end Cursor

/-! ## Stretches of words -/

/-- The tokens from one cursor up to another one have the given words. -/
inductive Cursor.Spells : Cursor → List Word → Cursor → Prop
  | nil (c : Cursor) : Spells c [] c
  | cons {c c' : Cursor} {w : Word} {words : List Word} (hword : c.current.word? = some w)
      (hrest : Spells c.advance words c') : Spells c (w :: words) c'

namespace Cursor.Spells

variable {c c' c'' : Cursor} {u v words : List Word} {w : Word}

theorem single (h : c.current.word? = some w) : c.Spells [w] c.advance :=
  .cons h (.nil _)

theorem append (h : c.Spells u c') (h' : c'.Spells v c'') : c.Spells (u ++ v) c'' := by
  induction h with
  | nil => exact h'
  | cons hword _ ih => exact .cons hword (ih h')

/-- A stretch of two parts, `u` and `v`, has a cursor between them. -/
theorem of_append (h : c.Spells (u ++ v) c'') : ∃ c', c.Spells u c' ∧ c'.Spells v c'' := by
  induction u generalizing c with
  | nil => exact ⟨c, .nil c, h⟩
  | cons w u ih =>
    cases h with
    | cons hword hrest =>
      obtain ⟨c', hu, hv⟩ := ih hrest
      exact ⟨c', .cons hword hu, hv⟩

theorem eq_of_nil (h : c.Spells [] c') : c' = c := by
  cases h; rfl

theorem of_cons (h : c.Spells (w :: words) c') :
    c.current.word? = some w ∧ c.advance.Spells words c' := by
  cases h with
  | cons hword hrest => exact ⟨hword, hrest⟩

theorem eq_of_single (h : c.Spells [w] c') : c.current.word? = some w ∧ c' = c.advance := by
  cases h with
  | cons hword hrest => exact ⟨hword, hrest.eq_of_nil⟩

theorem closed (h : c.Spells words c') (hc : c.Closed) : c'.Closed := by
  induction h with
  | nil => exact hc
  | cons _ _ ih => exact ih hc.advance

theorem loops_eq (h : c.Spells words c') : c'.loops = c.loops := by
  induction h with
  | nil => rfl
  | cons _ _ ih => simpa using ih

theorem functions_eq (h : c.Spells words c') : c'.functions = c.functions := by
  induction h with
  | nil => rfl
  | cons _ _ ih => simpa using ih

theorem setting_eq (h : c.Spells words c') : c'.setting = c.setting := by
  simp [Cursor.setting, h.loops_eq, h.functions_eq]

/-- The words of a stretch do not depend on the counts of loops and functions. -/
theorem withCounts (h : c.Spells words c') (loops functions : Nat) :
    (c.withCounts loops functions).Spells words (c'.withCounts loops functions) := by
  induction h with
  | nil => exact .nil _
  | cons hword _ ih =>
    rw [← Cursor.advance_withCounts] at ih
    exact .cons hword ih

/-- A stretch that is passed between `enter` and `leave` lies where it would without them. -/
theorem of_entered {enter : Cursor → Cursor} {leave : Cursor → Cursor → Cursor}
    (htakes : TakesBack enter leave) (h : (enter c).Spells words c') :
    c.Spells words (leave c c') := by
  obtain ⟨loops, functions, henter, hleave⟩ := htakes c
  rw [henter] at h
  rw [hleave c' h.loops_eq h.functions_eq]
  exact h.withCounts c.loops c.functions

theorem exists_entered {enter : Cursor → Cursor} {leave : Cursor → Cursor → Cursor}
    (htakes : TakesBack enter leave) (h : c.Spells words c') :
    ∃ c₁, (enter c).Spells words c₁ ∧ leave c c₁ = c' := by
  obtain ⟨loops, functions, henter, hleave⟩ := htakes c
  refine ⟨c'.withCounts loops functions, henter ▸ h.withCounts loops functions, ?_⟩
  rw [hleave _ rfl rfl, ← h.loops_eq, ← h.functions_eq]
  rfl

theorem length_ahead (h : c.Spells words c') (hc : c.Closed) :
    c.ahead.length = words.length + c'.ahead.length := by
  induction h with
  | nil => simp
  | @cons c c' w words hword _ ih =>
    obtain ⟨t, rest, hahead, hadvance⟩ := Cursor.advance_of_closed hc (Token.isEnd_eq_false hword)
    have hlength := ih hc.advance
    rw [hadvance] at hlength
    simp only [List.length_cons, hahead] at hlength ⊢
    omega

/-- Behind a word there are fewer tokens left. -/
theorem length_ahead_lt (h : c.Spells (w :: words) c') (hc : c.Closed) :
    c'.ahead.length < c.ahead.length := by
  have hlength := h.length_ahead hc
  rw [List.length_cons] at hlength
  omega

/-- A stretch takes tokens from the front of those that are left: `taken`, which have its words. -/
theorem exists_tokens (h : c.Spells words c') (hc : c.Closed) :
    ∃ taken, c.current :: c.ahead = taken ++ c'.current :: c'.ahead ∧
      taken.map Token.word? = words.map some := by
  induction h with
  | nil => exact ⟨[], rfl, rfl⟩
  | @cons c c' w words hword _ ih =>
    obtain ⟨t, rest, hahead, hadvance⟩ := Cursor.advance_of_closed hc (Token.isEnd_eq_false hword)
    obtain ⟨taken, htaken, hwords⟩ := ih hc.advance
    rw [hadvance] at htaken
    exact ⟨c.current :: taken, by simp [hahead, htaken], by simp [hword, hwords]⟩

/-- Tokens `taken` from the front of those that are left make a stretch of their words. -/
theorem of_tokens {taken : List Token} {t : Token} {rest : List Token}
    (hahead : c.current :: c.ahead = taken ++ t :: rest)
    (hwords : taken.map Token.word? = words.map some) :
    ∃ c', c.Spells words c' ∧ c'.current = t ∧ c'.ahead = rest := by
  induction taken generalizing c words with
  | nil =>
    cases words with
    | nil => exact ⟨c, .nil c, by simp_all⟩
    | cons w words => simp at hwords
  | cons first taken ih =>
    cases words with
    | nil => simp at hwords
    | cons w words =>
      simp only [List.map_cons, List.cons.injEq, List.cons_append] at hwords hahead
      obtain ⟨rfl, hahead⟩ := hahead
      have hend : c.current.isEnd = false := Token.isEnd_eq_false hwords.1
      have hadvance : c.advance.current :: c.advance.ahead = taken ++ t :: rest := by
        cases taken <;> simp [Cursor.advance, hend, hahead]
      obtain ⟨c', hspells, hcurrent, hrest⟩ := ih hadvance hwords.2
      exact ⟨c', .cons hwords.1 hspells, hcurrent, hrest⟩

end Cursor.Spells

/-! ## Tokens by their words -/

namespace Token

variable {t : Token}

theorem literalValue?_eq_some_iff {v : Value} :
    Grammar.literalValue? t = some v ↔ t.word? = some (.literal v) := by
  unfold word?
  cases Grammar.literalValue? t with
  | some w => simp
  | none => cases t.kind <;> simp

theorem literalValue?_eq_none {w : Word} (h : t.word? = some w) (hw : ∀ v, w ≠ .literal v) :
    Grammar.literalValue? t = none := by
  rw [Option.eq_none_iff_forall_ne_some]
  intro v hv
  rw [literalValue?_eq_some_iff, h, Option.some.injEq] at hv
  exact hw v hv

theorem is_mark (s : String) :
    t.is .punctuation s = decide (t.word? = some (.mark s)) := by
  rw [Bool.eq_iff_iff, decide_eq_true_iff]
  unfold word? is Grammar.literalValue?
  cases t.kind <;> simp
  cases Grammar.keywordValue? t.lexeme <;> simp

theorem is_operator (s : String) :
    t.is .operator s = decide (t.word? = some (.operator s)) := by
  rw [Bool.eq_iff_iff, decide_eq_true_iff]
  unfold word? is Grammar.literalValue?
  cases t.kind <;> simp
  cases Grammar.keywordValue? t.lexeme <;> simp

/-- A keyword that is no literal is a word of its own, so that `Token.is` looks for that word. -/
theorem is_keyword {s : String} (hs : Grammar.keywordValue? s = none) :
    t.is .keyword s = decide (t.word? = some (.keyword s)) := by
  rw [Bool.eq_iff_iff, decide_eq_true_iff]
  unfold word? is Grammar.literalValue?
  cases t.kind <;> simp
  cases hv : Grammar.keywordValue? t.lexeme with
  | none => simp
  | some v => simp only [reduceCtorEq, iff_false, Option.some.injEq]; rintro rfl; simp [hs] at hv

theorem kind_eq_identifier_iff : t.kind = .identifier ↔ t.word? = some (.name t.lexeme) := by
  unfold word? Grammar.literalValue?
  cases t.kind <;> simp
  cases Grammar.keywordValue? t.lexeme <;> simp

theorem word?_eq_name_iff {s : String} :
    t.word? = some (.name s) ↔ t.kind = .identifier ∧ t.lexeme = s := by
  unfold word? Grammar.literalValue?
  cases t.kind <;> simp
  cases Grammar.keywordValue? t.lexeme <;> simp

theorem word?_of_keyword {s : String} (hkind : t.kind = .keyword) (hlexeme : t.lexeme = s)
    (hs : Grammar.keywordValue? s = none) : t.word? = some (.keyword s) := by
  simp [word?, Grammar.literalValue?, hkind, hlexeme, hs]

theorem word?_eq_keyword {s : String} (h : t.word? = some (.keyword s)) :
    t.kind = .keyword ∧ t.lexeme = s := by
  have hvalue : Grammar.literalValue? t = none := literalValue?_eq_none h (by simp)
  rw [word?, hvalue] at h
  cases hkind : t.kind <;> simp [hkind] at h
  exact ⟨rfl, h⟩

end Token

/-! ## Single steps -/

namespace Reading

variable {α β : Type} {c c' : Cursor}

theorem run_bind_eq_ok {r : Reading α} {f : α → Reading β} {b : β} :
    (r >>= f).run c = .ok b c' ↔ ∃ a c₁, r.run c = .ok a c₁ ∧ (f a).run c₁ = .ok b c' := by
  rw [EStateM.run_bind]
  cases r.run c with
  | ok a c₁ => simp
  | error e c₁ => simp

theorem run_bind_of_ok {r : Reading α} {f : α → Reading β} {a : α} (h : r.run c = .ok a c') :
    (r >>= f).run c = (f a).run c' := by
  rw [EStateM.run_bind, h]

theorem run_pure_eq_ok {a b : α} : (pure a : Reading α).run c = .ok b c' ↔ a = b ∧ c = c' := by
  simp

theorem run_pure_bind {a : α} {f : α → Reading β} : (pure a >>= f).run c = (f a).run c := rfl

@[simp] theorem run_current : current.run c = .ok c.current c := rfl

@[simp] theorem run_advance : advance.run c = .ok c.current c.advance := rfl

@[simp] theorem run_get : (get : Reading Cursor).run c = .ok c c := rfl

theorem run_check (kind : TokenKind) (lexeme : Option String) :
    (check kind lexeme).run c = .ok (c.current.matches? kind lexeme) c := rfl

@[simp] theorem run_refuseAt (v : Violation) (t : Token) :
    (refuseAt v t : Reading α).run c = .error (.fault (.atToken v t)) c := rfl

@[simp] theorem run_expected (what : Expectation) :
    (expected what : Reading α).run c = .error (.fault (.atToken (.expected what) c.current)) c :=
  rfl

/-- Nothing comes behind `refuseAt`. -/
@[simp] theorem run_refuseAt_bind (v : Violation) (t : Token) (f : α → Reading β) :
    (refuseAt v t >>= f).run c = .error (.fault (.atToken v t)) c := rfl

theorem run_take_eq_ok {kind : TokenKind} {lexeme : Option String} {t : Token} :
    (take kind lexeme).run c = .ok t c' ↔
      c.current.matches? kind lexeme = true ∧ t = c.current ∧ c' = c.advance := by
  unfold take
  rw [run_bind_of_ok (run_check kind lexeme)]
  split
  · rename_i h
    constructor
    · intro htake; cases htake; exact ⟨h, rfl, rfl⟩
    · rintro ⟨_, rfl, rfl⟩; rfl
  · rename_i h
    simp [h]

@[simp] theorem run_seesMark (s : String) :
    (sees .punctuation s).run c = .ok (decide (c.current.word? = some (.mark s))) c := by
  rw [← Token.is_mark]; rfl

@[simp] theorem run_seesOperator (s : String) :
    (sees .operator s).run c = .ok (decide (c.current.word? = some (.operator s))) c := by
  rw [← Token.is_operator]; rfl

theorem run_seesKeyword {s : String} (hs : Grammar.keywordValue? s = none) :
    (sees .keyword s).run c = .ok (decide (c.current.word? = some (.keyword s))) c := by
  rw [← Token.is_keyword hs]; rfl

@[simp] theorem run_checkIdentifier :
    (check .identifier none).run c =
      .ok (decide (c.current.word? = some (.name c.current.lexeme))) c := by
  rw [run_check]
  simp [Token.matches?, Token.kind_eq_identifier_iff]

/-- Behind a token that had to be `there` the reading `f` goes on. -/
theorem run_taken_bind_eq_ok {r : Reading Token} {there : Prop} {f : Token → Reading β} {b : β}
    (hr : ∀ t c₁, r.run c = .ok t c₁ ↔ there ∧ t = c.current ∧ c₁ = c.advance) :
    (r >>= f).run c = .ok b c' ↔ there ∧ (f c.current).run c.advance = .ok b c' := by
  simp only [run_bind_eq_ok, hr]
  constructor
  · rintro ⟨t, c₁, ⟨hthere, rfl, rfl⟩, h⟩
    exact ⟨hthere, h⟩
  · exact fun ⟨hthere, h⟩ => ⟨_, _, ⟨hthere, rfl, rfl⟩, h⟩

theorem run_eatMark_eq_ok {s : String} {t : Token} :
    (eatMark s).run c = .ok t c' ↔
      c.current.word? = some (.mark s) ∧ t = c.current ∧ c' = c.advance := by
  have his : c.current.matches? .punctuation (some s) =
      decide (c.current.word? = some (.mark s)) := Token.is_mark s
  rw [eatMark, eat, run_take_eq_ok, his, decide_eq_true_iff]

theorem run_eatMark {s : String} (h : c.current.word? = some (.mark s)) :
    (eatMark s).run c = .ok c.current c.advance :=
  run_eatMark_eq_ok.2 ⟨h, rfl, rfl⟩

theorem run_eatMark_bind_eq_ok {s : String} {f : Token → Reading β} {b : β} :
    (eatMark s >>= f).run c = .ok b c' ↔
      c.current.word? = some (.mark s) ∧ (f c.current).run c.advance = .ok b c' :=
  run_taken_bind_eq_ok fun _ _ => run_eatMark_eq_ok

theorem run_eatKeyword_eq_ok {s : String} {t : Token} (hs : Grammar.keywordValue? s = none) :
    (eat .keyword s).run c = .ok t c' ↔
      c.current.word? = some (.keyword s) ∧ t = c.current ∧ c' = c.advance := by
  have his : c.current.matches? .keyword (some s) =
      decide (c.current.word? = some (.keyword s)) := Token.is_keyword hs
  rw [eat, run_take_eq_ok, his, decide_eq_true_iff]

theorem run_eatKeyword {s : String} (hs : Grammar.keywordValue? s = none)
    (h : c.current.word? = some (.keyword s)) :
    (eat .keyword s).run c = .ok c.current c.advance :=
  (run_eatKeyword_eq_ok hs).2 ⟨h, rfl, rfl⟩

theorem run_eatKeyword_bind_eq_ok {s : String} {f : Token → Reading β} {b : β}
    (hs : Grammar.keywordValue? s = none) :
    (eat .keyword s >>= f).run c = .ok b c' ↔
      c.current.word? = some (.keyword s) ∧ (f c.current).run c.advance = .ok b c' :=
  run_taken_bind_eq_ok fun _ _ => run_eatKeyword_eq_ok hs

theorem run_takeName_eq_ok {t : Token} :
    (take .identifier none).run c = .ok t c' ↔
      c.current.word? = some (.name c.current.lexeme) ∧ t = c.current ∧ c' = c.advance := by
  rw [run_take_eq_ok, ← Token.kind_eq_identifier_iff]
  simp [Token.matches?]

theorem run_surrounded_eq_ok {enter : Cursor → Cursor} {leave : Cursor → Cursor → Cursor}
    {r : Reading α} {a : α} :
    (surrounded enter leave r).run c = .ok a c' ↔
      ∃ c₁, r.run (enter c) = .ok a c₁ ∧ c' = leave c c₁ := by
  simp only [surrounded, EStateM.run]
  cases r (enter c) with
  | ok b c₁ => simp [eq_comm]
  | error e c₁ => simp

theorem run_surrounded_eq_error {enter : Cursor → Cursor} {leave : Cursor → Cursor → Cursor}
    {r : Reading α} {e : Refusal} :
    (surrounded enter leave r).run c = .error e c' ↔
      ∃ c₁, r.run (enter c) = .error e c₁ ∧ c' = leave c c₁ := by
  simp only [surrounded, EStateM.run]
  cases r (enter c) with
  | ok b c₁ => simp
  | error e' c₁ => simp [eq_comm]

/-! ## Repetition -/

/-- One accepted `step` of a repetition, which must leave fewer tokens `ahead`. -/
def Accepts (step : α → Reading (Option α)) (x y : α × Cursor) : Prop :=
  (step x.1).run x.2 = .ok (some y.1) y.2 ∧ y.2.ahead.length < x.2.ahead.length

theorem run_repeatWithin_cons (step : α → Reading (Option α)) (round : β) (rounds : List β)
    (a : α) :
    (repeatWithin step (round :: rounds) a).run c =
      match (step a).run c with
      | .ok none c₁ => .ok a c₁
      | .ok (some b) c₁ => (repeatWithin step rounds b).run c₁
      | .error e c₁ => .error e c₁ := by
  rw [repeatWithin, EStateM.run_bind]
  cases (step a).run c with
  | ok o c₁ => cases o <;> rfl
  | error e c₁ => rfl

/-- `Accepts` steps up to a declining one, `hstop`, are what `repeatFrom` takes. -/
theorem run_repeatFrom_of_accepts {step : α → Reading (Option α)} {a b : α} {c₁ : Cursor}
    (hsteps : Relation.ReflTransGen (Accepts step) (a, c) (b, c₁))
    (hstop : (step b).run c₁ = .ok none c') : (repeatFrom step a).run c = .ok b c' := by
  -- there are more rounds than tokens, and every accepted step takes a token
  have within : ∀ {x : α × Cursor}, Relation.ReflTransGen (Accepts step) x (b, c₁) →
      ∀ rounds : List Token, x.2.ahead.length < rounds.length →
      (repeatWithin step rounds x.1).run x.2 = .ok b c' := by
    intro x hx
    induction hx using Relation.ReflTransGen.head_induction_on with
    | refl =>
      intro rounds hlength
      cases rounds with
      | nil => simp at hlength
      | cons round rounds => rw [run_repeatWithin_cons, hstop]
    | head hstep _ ih =>
      intro rounds hlength
      cases rounds with
      | nil => simp at hlength
      | cons round rounds =>
        rw [run_repeatWithin_cons, hstep.1]
        have hless := hstep.2
        simp only [List.length_cons] at hlength
        exact ih rounds (by omega)
  exact within hsteps (c.current :: c.ahead) (by simp)

/-- One `step` of a repetition on the word `w` that it looks for, which must leave fewer tokens
    `ahead`. -/
def Continues (w : Word) (step : α → Reading α) (x y : α × Cursor) : Prop :=
  x.2.current.word? = some w ∧ (step x.1).run x.2 = .ok y.1 y.2 ∧
    y.2.ahead.length < x.2.ahead.length

/-- Steps on a word `w` up to where another word stands are what `whileSees` takes. -/
theorem run_whileSees_of_continues {kind : TokenKind} {lexeme : String} {w : Word}
    {step : α → Reading α} {a b : α}
    (hsees : ∀ c, (sees kind lexeme).run c = .ok (decide (c.current.word? = some w)) c)
    (hsteps : Relation.ReflTransGen (Continues w step) (a, c) (b, c'))
    (hstop : c'.current.word? ≠ some w) :
    (whileSees kind lexeme step a).run c = .ok b c' := by
  refine run_repeatFrom_of_accepts (Relation.ReflTransGen.mono ?_ _ _ hsteps) ?_
  · rintro x y ⟨hword, hstep, hless⟩
    refine ⟨?_, hless⟩
    rw [run_bind_of_ok (hsees x.2), if_pos (by simpa using hword), run_bind_of_ok hstep]
    rfl
  · rw [run_bind_of_ok (hsees c'), if_neg (by simpa using hstop)]
    rfl

/-- What holds at the beginning and is kept by the accepted steps, `I`, holds where `repeatFrom`
    ends, and there the step declines. -/
theorem repeatFrom_invariant {step : α → Reading (Option α)} {I : α → Cursor → Prop} {a b : α}
    (hstep : ∀ {a b : α} {c c' : Cursor}, c.Closed → I a c → (step a).run c = .ok (some b) c' →
      I b c' ∧ ∃ w words, c.Spells (w :: words) c')
    (hc : c.Closed) (ha : I a c) (h : (repeatFrom step a).run c = .ok b c') :
    ∃ c₁, c₁.Closed ∧ I b c₁ ∧ (step b).run c₁ = .ok none c' := by
  -- by induction on the rounds, of which there are more than tokens at all times
  have within : ∀ (rounds : List Token) {a : α} {c : Cursor}, c.Closed → I a c →
      c.ahead.length < rounds.length → (repeatWithin step rounds a).run c = .ok b c' →
      ∃ c₁, c₁.Closed ∧ I b c₁ ∧ (step b).run c₁ = .ok none c' := by
    intro rounds
    induction rounds with
    | nil => intro a c _ _ hlength; simp at hlength
    | cons round rounds ih =>
      intro a c hc ha hlength h
      rw [run_repeatWithin_cons] at h
      split at h
      · rename_i c₁ hdecline
        cases h
        exact ⟨c, hc, ha, hdecline⟩
      · rename_i b' c₁ haccept
        obtain ⟨hb', w, words, hspells⟩ := hstep hc ha haccept
        have hless := hspells.length_ahead_lt hc
        simp only [List.length_cons] at hlength
        exact ih (hspells.closed hc) hb' (by omega) h
      · simp at h
  exact within (c.current :: c.ahead) hc ha (by simp) h

/-- What holds at the beginning and is kept by the steps of `whileSees`, `I`, holds where it ends,
    and there the token is another one. -/
theorem whileSees_invariant {kind : TokenKind} {lexeme : String} {w : Word}
    {step : α → Reading α} {I : α → Cursor → Prop} {a b : α}
    (hsees : ∀ c, (sees kind lexeme).run c = .ok (decide (c.current.word? = some w)) c)
    (hstep : ∀ {a b : α} {c c' : Cursor}, c.Closed → I a c → c.current.word? = some w →
      (step a).run c = .ok b c' → I b c' ∧ ∃ u words, c.Spells (u :: words) c')
    (hc : c.Closed) (ha : I a c) (h : (whileSees kind lexeme step a).run c = .ok b c') :
    I b c' ∧ c'.current.word? ≠ some w := by
  obtain ⟨c₁, _, hb, hstop⟩ := repeatFrom_invariant (I := I)
    (by
      intro a b c c' hc ha hab
      rw [run_bind_of_ok (hsees c)] at hab
      split at hab
      · rename_i hw
        obtain ⟨b', c₁, hb', hab⟩ := run_bind_eq_ok.1 hab
        obtain ⟨hsome, rfl⟩ := run_pure_eq_ok.1 hab
        cases hsome
        exact hstep hc ha (by simpa using hw) hb'
      · simp at hab)
    hc ha h
  rw [run_bind_of_ok (hsees c₁)] at hstop
  split at hstop
  · obtain ⟨_, _, _, hstop⟩ := run_bind_eq_ok.1 hstop
    simp at hstop
  · rename_i hw
    obtain ⟨_, rfl⟩ := run_pure_eq_ok.1 hstop
    exact ⟨hb, by simpa using hw⟩

end Reading

end Scripting
