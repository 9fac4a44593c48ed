import Scripting.Proofs.Grammar.StatementSoundness
import Scripting.Proofs.Grammar.Targets

set_option autoImplicit false

/-! # Expressions that are broken off

A reading that is refused at an end of input has taken words up to there. They can be completed to
what was to be read, and words of a few kinds, those that `Word.Fills`, are enough for it, unless
there is a sign of assignment among them that stands behind no variable: such a sign is judged only
when its right side has been read, which an end of input prevents. So what is to be read is given as
`Spellings` that take all words with such a sign along. A part that is broken off behind others must
complete what these leave of the set. -/

namespace Scripting

/-! ## Completions -/

/-- A name of underscores, `n` and one more. -/
def underscores (n : Nat) : String :=
  String.ofList (List.replicate (n + 1) '_')

/-- The words with which broken off texts are completed. -/
def Word.Fills : Word → Prop
  | .literal value => value = .nil
  | .name text => ∃ n, text = underscores n
  | .mark text => text ∈ [";", "(", ")", Grammar.openBrace, Grammar.closeBrace]
  | .operator _ | .keyword _ => False

/-- A set of spellings, with all words among them that assign to what is no variable. -/
structure Spellings where
  has : List Word → Prop
  misassigned : ∀ words, Misassigned words → has words

namespace Spellings

/-- What the set `L` has behind the words `front`. -/
def behind (front : List Word) (L : Spellings) : Spellings where
  has words := L.has (front ++ words)
  misassigned _ h := L.misassigned _ (h.append_left front)

/-- Whether `words` can be completed to a spelling in `L`. -/
def Begins (L : Spellings) (words : List Word) : Prop :=
  ∃ more, (∀ w ∈ more, w.Fills) ∧ L.has (words ++ more)

variable {L L' : Spellings} {words : List Word}

theorem Begins.of_behind {front : List Word} (h : (L.behind front).Begins words) :
    L.Begins (front ++ words) := by
  obtain ⟨more, hfills, hmore⟩ := h
  exact ⟨more, hfills, by rwa [List.append_assoc]⟩

/-- A spelling in one set, with `further` words behind it, is one in another set. -/
theorem Begins.filled (h : L.Begins words) {further : List Word}
    (hfurther : ∀ w ∈ further, w.Fills) (hmap : ∀ full, L.has full → L'.has (full ++ further)) :
    L'.Begins words := by
  obtain ⟨more, hfills, hmore⟩ := h
  refine ⟨more ++ further, ?_, by simpa using hmap _ hmore⟩
  intro w hw
  rcases List.mem_append.1 hw with hw | hw
  · exact hfills w hw
  · exact hfurther w hw

end Spellings

/-- The spellings of the expressions from the level `k` on. -/
def Expr.spellings (k : Nat) : Spellings where
  has words := Misassigned words ∨ ∃ e : Expr, e.WellFormed ∧ k ≤ e.level ∧ e.spelled = words
  misassigned _ := .inl

/-- The spellings of the statements of a `shape` that are well-formed in the setting `w`. -/
def Stmt.spellings (shape : Stmt → Prop) (w : Setting) : Spellings where
  has words := Misassigned words ∨ ∃ s : Stmt, shape s ∧ s.WellFormed w ∧ s.spelled = words
  misassigned _ := .inl

/-! ## Readings that are broken off -/

namespace Reading

variable {α β : Type}

/-- Whether the words that `r` takes up to an end of input at which it is refused can be completed
    to a spelling in `L`. -/
def Breaks (r : Reading α) (c : Cursor) (L : Spellings) : Prop :=
  ∀ ⦃f : Fault⦄ ⦃c' : Cursor⦄, r.run c = .error (.fault f) c' → f.isAtEnd = true →
    ∃ words c₁, c.Spells words c₁ ∧ c₁.current.isEnd = true ∧ L.Begins words

/-- Whether a reading `r` of expressions from the level `k` on, when it is broken off, can be
    completed to one. -/
def BreaksAt (k : Nat) (r : Reading Expr) : Prop :=
  ∀ ⦃c : Cursor⦄, c.Closed → r.Breaks c (Expr.spellings k)

/-- Whether a reading `r` of statements of a `shape`, when it is broken off, can be completed to
    one. -/
def BreaksAs (shape : Stmt → Prop) (r : Reading Stmt) : Prop :=
  ∀ ⦃c : Cursor⦄, c.Closed → r.Breaks c (Stmt.spellings shape c.setting)

namespace Breaks

variable {r : Reading α} {f : α → Reading β} {c : Cursor} {L L' : Spellings}

theorem pure (a : α) : Breaks (Pure.pure a) c L :=
  fun _ _ h => nomatch h

theorem tooDeep : Breaks (throw .tooDeep : Reading α) c L :=
  fun _ _ h => nomatch h

/-- What is read first is broken off itself, or it takes words, and the rest is broken off behind
    them. -/
theorem bind (hr : r.Breaks c L)
    (hf : ∀ a c₁, r.run c = .ok a c₁ →
      ∃ front, c.Spells front c₁ ∧ (f a).Breaks c₁ (L.behind front)) :
    (r >>= f).Breaks c L := by
  intro fault c' h hend
  rw [EStateM.run_bind] at h
  cases hrun : r.run c with
  | ok a c₁ =>
    rw [hrun] at h
    obtain ⟨front, hfront, hbreaks⟩ := hf a c₁ hrun
    obtain ⟨words, c₂, hspells, hend', hbegins⟩ := hbreaks h hend
    exact ⟨front ++ words, c₂, hfront.append hspells, hend', hbegins.of_behind⟩
  | error e c₁ =>
    rw [hrun] at h
    cases h
    exact hr hrun hend

/-- Nothing is refused behind the last part, which `pure` gives. -/
theorem bind_pure (hr : r.Breaks c L) (f : α → β) :
    (r >>= fun a => Pure.pure (f a)).Breaks c L := by
  intro fault c' h hend
  rw [EStateM.run_bind] at h
  cases hrun : r.run c with
  | ok a c₁ =>
    rw [hrun] at h
    cases h
  | error e c₁ =>
    rw [hrun] at h
    cases h
    exact hr hrun hend

/-- Looking at something takes no words: the reading `r` leaves the cursor where it is. -/
theorem look_bind {a : α} (h : r.run c = .ok a c) (hf : (f a).Breaks c L) :
    (r >>= f).Breaks c L := by
  intro fault c' hrun hend
  rw [run_bind_of_ok h] at hrun
  exact hf hrun hend

theorem advance_bind {f : Token → Reading β} {w : Word} (hw : c.current.word? = some w)
    (hf : (f c.current).Breaks c.advance (L.behind [w])) : (advance >>= f).Breaks c L := by
  refine bind (fun _ _ h => nomatch h) fun t c₁ h => ?_
  rw [run_advance] at h
  cases h
  exact ⟨[w], .single hw, hf⟩

/-- A refusal at a token before the end is no break. -/
theorem refuseAt {t : Token} (ht : t.isEnd = false) (v : Violation) :
    (refuseAt v t : Reading α).Breaks c L := by
  intro fault c' h hend
  rw [run_refuseAt] at h
  cases h
  exact absurd hend (by simp [Fault.isAtEnd, Fault.atToken, ht])

theorem refuseAt_bind {t : Token} (ht : t.isEnd = false) (v : Violation) :
    (Reading.refuseAt v t >>= f).Breaks c L :=
  bind (refuseAt ht v) fun _ _ h => nomatch h

/-- Where something is `expected`, it can be completed by it. -/
theorem expected (h : L.Begins []) (what : Expectation) :
    (expected what : Reading α).Breaks c L := by
  intro fault c' hrun hend
  rw [run_expected] at hrun
  cases hrun
  exact ⟨[], c, .nil c, by simpa [Fault.isAtEnd, Fault.atToken] using hend, h⟩

theorem expected_bind (h : L.Begins []) (what : Expectation) :
    (Reading.expected what >>= f).Breaks c L :=
  bind (expected h what) fun _ _ h => nomatch h

theorem take (h : L.Begins []) (kind : TokenKind) (lexeme : Option String) :
    (take kind lexeme).Breaks c L := by
  refine look_bind (run_check kind lexeme) ?_
  split
  · exact fun _ _ h => nomatch h
  · exact expected h _

theorem eatMark_bind {s : String} {f : Token → Reading β} (h : L.Begins [])
    (hf : c.current.word? = some (.mark s) →
      (f c.current).Breaks c.advance (L.behind [.mark s])) : (eatMark s >>= f).Breaks c L := by
  refine bind (take h _ _) fun t c₁ hrun => ?_
  obtain ⟨hw, rfl, rfl⟩ := run_eatMark_eq_ok.1 hrun
  exact ⟨[.mark s], .single hw, hf hw⟩

theorem eatKeyword_bind {s : String} {f : Token → Reading β}
    (hs : Grammar.keywordValue? s = none) (h : L.Begins [])
    (hf : c.current.word? = some (.keyword s) →
      (f c.current).Breaks c.advance (L.behind [.keyword s])) :
    (eat .keyword s >>= f).Breaks c L := by
  refine bind (take h _ _) fun t c₁ hrun => ?_
  obtain ⟨hw, rfl, rfl⟩ := (run_eatKeyword_eq_ok hs).1 hrun
  exact ⟨[.keyword s], .single hw, hf hw⟩

/-- A part of what is to be read, with `further` words behind it that complete the whole. -/
theorem filled (h : r.Breaks c L) {further : List Word} (hfurther : ∀ w ∈ further, w.Fills)
    (hmap : ∀ full, L.has full → L'.has (full ++ further)) : r.Breaks c L' := by
  intro fault c' hrun hend
  obtain ⟨words, c₁, hspells, hend', hbegins⟩ := h hrun hend
  exact ⟨words, c₁, hspells, hend', hbegins.filled hfurther hmap⟩

theorem mono (h : r.Breaks c L) (hmap : ∀ full, L.has full → L'.has full) : r.Breaks c L' := by
  have hfurther : ∀ w ∈ ([] : List Word), w.Fills := by simp
  refine h.filled hfurther fun full hfull => ?_
  rw [List.append_nil]
  exact hmap full hfull

/-- An expression as a part of what is to be read. -/
theorem expression {r : Reading Expr} {k : Nat} (h : r.Breaks c (Expr.spellings k))
    {further : List Word} (hfurther : ∀ w ∈ further, w.Fills)
    (hmap : ∀ e : Expr, e.WellFormed → k ≤ e.level → L.has (e.spelled ++ further)) :
    r.Breaks c L := by
  refine h.filled hfurther fun full hfull => ?_
  rcases hfull with hmisassigned | ⟨e, hwf, hlevel, rfl⟩
  · exact L.misassigned _ (hmisassigned.append_right further)
  · exact hmap e hwf hlevel

/-- An expression as the last part of what is to be read. -/
theorem lastExpression {r : Reading Expr} {k : Nat} (h : r.Breaks c (Expr.spellings k))
    (hmap : ∀ e : Expr, e.WellFormed → k ≤ e.level → L.has e.spelled) : r.Breaks c L := by
  have hfurther : ∀ w ∈ ([] : List Word), w.Fills := by simp
  refine h.expression hfurther fun e hwf hlevel => ?_
  rw [List.append_nil]
  exact hmap e hwf hlevel

/-- A statement as a part of what is to be read. -/
theorem statement {r : Reading Stmt} {shape : Stmt → Prop} {w : Setting}
    (h : r.Breaks c (Stmt.spellings shape w)) {further : List Word}
    (hfurther : ∀ w ∈ further, w.Fills)
    (hmap : ∀ s : Stmt, shape s → s.WellFormed w → L.has (s.spelled ++ further)) :
    r.Breaks c L := by
  refine h.filled hfurther fun full hfull => ?_
  rcases hfull with hmisassigned | ⟨s, hshape, hwf, rfl⟩
  · exact L.misassigned _ (hmisassigned.append_right further)
  · exact hmap s hshape hwf

/-- A statement as the last part of what is to be read. -/
theorem lastStatement {r : Reading Stmt} {shape : Stmt → Prop} {w : Setting}
    (h : r.Breaks c (Stmt.spellings shape w))
    (hmap : ∀ s : Stmt, shape s → s.WellFormed w → L.has s.spelled) : r.Breaks c L := by
  have hfurther : ∀ w ∈ ([] : List Word), w.Fills := by simp
  refine h.statement hfurther fun s hshape hwf => ?_
  rw [List.append_nil]
  exact hmap s hshape hwf

/-- The counts of loops and functions that `enter` makes around a reading are no part of its
    words. -/
theorem surrounded {enter : Cursor → Cursor} {leave : Cursor → Cursor → Cursor}
    {loops functions : Nat} (henter : enter c = c.withCounts loops functions)
    (h : r.Breaks (c.withCounts loops functions) L) : (surrounded enter leave r).Breaks c L := by
  intro fault c' hrun hend
  obtain ⟨c₁, hrefused, -⟩ := run_surrounded_eq_error.1 hrun
  rw [henter] at hrefused
  obtain ⟨words, c₂, hspells, hend', hbegins⟩ := h hrefused hend
  exact ⟨words, _, hspells.withCounts c.loops c.functions, hend', hbegins⟩

/-- Where `repeatFrom` is broken off one of its steps is, behind the words that those before it
    took. -/
theorem repeatFrom {step : α → Reading (Option α)} {I : α → List Word → Cursor → Prop} {a : α}
    (hstep : ∀ {a b : α} {front : List Word} {c₁ c₂ : Cursor}, c₁.Closed → I a front c₁ →
      (step a).run c₁ = .ok (some b) c₂ →
      ∃ w words, c₁.Spells (w :: words) c₂ ∧ I b (front ++ w :: words) c₂)
    (hbreaks : ∀ {a : α} {front : List Word} {c₁ : Cursor}, c₁.Closed → I a front c₁ →
      (step a).Breaks c₁ (L.behind front))
    (hc : c.Closed) (ha : I a [] c) : (repeatFrom step a).Breaks c L := by
  intro fault c' hrun hend
  have within : ∀ (rounds : List Token) {a : α} {front : List Word} {c₁ : Cursor}, c₁.Closed →
      c.Spells front c₁ → I a front c₁ →
      (repeatWithin step rounds a).run c₁ = .error (.fault fault) c' →
      ∃ words c₂, c.Spells words c₂ ∧ c₂.current.isEnd = true ∧ L.Begins words := by
    intro rounds
    induction rounds with
    | nil => intro a front c₁ _ _ _ h; exact nomatch h
    | cons round rounds ih =>
      intro a front c₁ hc₁ hfront ha h
      rw [run_repeatWithin_cons] at h
      split at h
      · cases h
      · rename_i b c₂ haccept
        obtain ⟨w, words, hspells, hb⟩ := hstep hc₁ ha haccept
        exact ih (hspells.closed hc₁) (hfront.append hspells) hb h
      · rename_i hrefused
        cases h
        obtain ⟨words, c₂, hspells, hend', hbegins⟩ := hbreaks hc₁ ha hrefused hend
        exact ⟨front ++ words, c₂, hfront.append hspells, hend', hbegins.of_behind⟩
  exact within (c.current :: c.ahead) hc (.nil c) ha hrun

theorem whileSees {kind : TokenKind} {lexeme : String} {w : Word} {step : α → Reading α}
    {I : α → List Word → Cursor → Prop} {a : α}
    (hsees : ∀ c, (sees kind lexeme).run c = .ok (decide (c.current.word? = some w)) c)
    (hstep : ∀ {a b : α} {front : List Word} {c₁ c₂ : Cursor}, c₁.Closed → I a front c₁ →
      c₁.current.word? = some w → (step a).run c₁ = .ok b c₂ →
      ∃ w words, c₁.Spells (w :: words) c₂ ∧ I b (front ++ w :: words) c₂)
    (hbreaks : ∀ {a : α} {front : List Word} {c₁ : Cursor}, c₁.Closed → I a front c₁ →
      c₁.current.word? = some w → (step a).Breaks c₁ (L.behind front))
    (hc : c.Closed) (ha : I a [] c) : (whileSees kind lexeme step a).Breaks c L := by
  refine .repeatFrom (I := I) ?_ ?_ hc ha
  · intro a b front c₁ c₂ hc₁ ha hab
    rw [run_bind_of_ok (hsees c₁)] at hab
    split at hab
    · rename_i hw
      obtain ⟨b', c₂, hb', hab⟩ := run_bind_eq_ok.1 hab
      obtain ⟨hsome, rfl⟩ := run_pure_eq_ok.1 hab
      cases hsome
      exact hstep hc₁ ha (by simpa using hw) hb'
    · simp at hab
  · intro a front c₁ hc₁ ha
    refine .look_bind (hsees c₁) ?_
    split
    · rename_i hw
      exact bind_pure (hbreaks hc₁ ha (by simpa using hw)) some
    · exact .pure _

end Breaks

end Reading

/-- Whether the parts of `g`, which may be nested, can be completed where they are broken off. -/
structure Nested.Breaks (g : Nested) : Prop where
  expression : g.expression.BreaksAt 0
  operand : g.operand.BreaksAt 7
  statement : g.statement.BreaksAs fun _ => True
  conditional : g.conditional.BreaksAs Stmt.IsAlternative

namespace Grammar

open Reading

variable {g : Nested}

/-! ## Operands -/

theorem primary_breaks (hs : g.expression.SoundAt 0) (hg : g.expression.BreaksAt 0) :
    (primary g).BreaksAt 9 := by
  intro c hc
  have hclose : ∀ w ∈ [Word.mark ")"], w.Fills := by simp [Word.Fills]
  have hgrouping : ∀ e : Expr, e.WellFormed →
      (Expr.spellings 9).has (.mark "(" :: (e.spelled ++ [.mark ")"])) := fun e hwf =>
    .inr ⟨.grouping e .unknown, hwf, Nat.le_refl _, rfl⟩
  unfold primary
  refine .look_bind run_current ?_
  split
  · rename_i value hvalue
    exact .advance_bind (Token.literalValue?_eq_some_iff.1 hvalue) (.pure _)
  · split
    · rename_i hkind
      exact .advance_bind (Token.kind_eq_identifier_iff.1 hkind) (.pure _)
    · split
      · rename_i hopen
        rw [Token.is_mark, decide_eq_true_iff] at hopen
        refine .advance_bind hopen (.bind ?_ fun inner c₁ hinner => ?_)
        · exact (hg hc.advance).expression hclose fun e hwf _ => hgrouping e hwf
        · obtain ⟨hwf, -, hspells, -⟩ := hs hc.advance hinner
          refine ⟨_, hspells, .eatMark_bind ?_ fun _ => .pure _⟩
          exact ⟨[.mark ")"], hclose, hgrouping inner hwf⟩
      · -- where an expression is due, a literal will do
        refine .expected ⟨[.literal .nil], by simp [Word.Fills], ?_⟩ _
        exact .inr ⟨.literal .nil .unknown, trivial, Nat.le_refl _, rfl⟩

/-- A list that is broken off, where each `element` can be completed to the end of the list behind
    those before it. -/
theorem elements_breaks {α : Type} {element : List α → Reading α} {I : List α → Prop}
    {L : Spellings} (spelled : α → List Word) (hnil : I [])
    (helement : ∀ {done : List α} {c c' : Cursor} {a : α}, c.Closed → I done →
      (element done).run c = .ok a c' → I (a :: done) ∧ c.Spells (spelled a) c')
    (hbreaks : ∀ {done : List α} {c : Cursor}, c.Closed → I done →
      (element done).Breaks c (L.behind (done.reverse.flatMap fun a => spelled a ++ [.mark ","])))
    {c : Cursor} (hc : c.Closed) : (elements element).Breaks c L := by
  unfold elements
  refine .look_bind (run_seesMark _) ?_
  split
  · exact .pure _
  · refine .bind ((hbreaks hc hnil).mono fun _ hfull => hfull) fun first c₁ hfirst => ?_
    obtain ⟨hI, hspells⟩ := helement hc hnil hfirst
    refine ⟨_, hspells, .bind_pure (.whileSees
      (I := fun done front _ => I done ∧ (done.reverse.flatMap fun a => spelled a ++ [.mark ","]) =
        spelled first ++ (front ++ [.mark ","]))
      (fun _ => run_seesMark ",") ?_ ?_ (hspells.closed hc) ⟨hI, by simp⟩) _⟩
    · rintro done done' front c₂ c₃ hc₂ ⟨hI, hfront⟩ hcomma hstep
      obtain ⟨next, rfl, hI', hspells'⟩ := oneMore_sound helement hc₂ hI hcomma hstep
      refine ⟨_, _, hspells', hI', ?_⟩
      rw [List.reverse_cons, List.flatMap_append, hfront]
      simp
    · rintro done front c₂ hc₂ ⟨hI, hfront⟩ hcomma
      refine .advance_bind hcomma (.bind_pure ((hbreaks hc₂.advance hI).mono ?_) _)
      intro full hfull
      simpa [Spellings.behind, hfront] using hfull

/-- The spellings of argument lists behind their opening parenthesis. -/
def argumentSpellings : Spellings where
  has words := Misassigned words ∨ ∃ es, Expr.AllWellFormed es ∧
    commaSeparated (Expr.spelledEach es) ++ [.mark ")"] = words
  misassigned _ := .inl

theorem arguments_breaks (hs : g.expression.SoundAt 0) (hg : g.expression.BreaksAt 0) {c : Cursor}
    (hc : c.Closed) : (arguments g).Breaks c argumentSpellings := by
  have hclose : ∀ w ∈ [Word.mark ")"], w.Fills := by simp [Word.Fills]
  refine .bind (elements_breaks Expr.spelled (I := fun done => ∀ e ∈ done, e.WellFormed) (by simp)
    ?_ ?_ hc) fun es c₁ hes => ?_
  · intro done c₁ c₂ e hc₁ hdone he
    obtain ⟨hwf, -, hspells, -⟩ := hs hc₁ he
    exact ⟨by simpa using ⟨hwf, hdone⟩, hspells⟩
  · intro done c₁ hc₁ hdone
    refine (hg hc₁).expression hclose fun e hwf _ => .inr ⟨done.reverse ++ [e], ?_, ?_⟩
    · rw [Expr.allWellFormed_iff]
      intro e' he'
      rcases List.mem_append.1 he' with he' | he'
      · exact hdone e' (List.mem_reverse.1 he')
      · rwa [List.mem_singleton.1 he']
    · rw [Expr.spelledEach_eq_map, List.map_append, List.map_singleton,
        commaSeparated_map_concat, List.append_assoc]
  · obtain ⟨hwf, hspells⟩ := expressions_sound hs hc hes
    refine ⟨_, hspells, .eatMark_bind ⟨[.mark ")"], hclose, ?_⟩ fun _ => .pure _⟩
    exact .inr ⟨es, hwf, rfl⟩

theorem call_breaks (hs : g.expression.SoundAt 0) (hg : g.expression.BreaksAt 0) :
    (call g).BreaksAt 8 := by
  intro c hc
  refine .bind ((primary_breaks hs hg hc).lastExpression fun e hwf hlevel =>
    .inr ⟨e, hwf, by omega, rfl⟩) fun callee c₁ hcallee => ?_
  obtain ⟨hwf, hlevel, hspells, -⟩ := primary_sound hs hc hcallee
  refine ⟨_, hspells, .whileSees
    (I := fun e front _ => e.WellFormed ∧ 8 ≤ e.level ∧ e.spelled = callee.spelled ++ front)
    (fun _ => run_seesMark "(") ?_ ?_ (hspells.closed hc) ⟨hwf, by omega, by simp⟩⟩
  · rintro e e' front c₂ c₃ hc₂ ⟨hwf, hlevel, hfront⟩ hopen hstep
    obtain ⟨hwf', hlevel', words, hspelled, hpassed⟩ :=
      application_sound hs hc₂ hwf hlevel hopen hstep
    exact ⟨_, _, hpassed, hwf', hlevel', by rw [hspelled, hfront, List.append_assoc]⟩
  · rintro e front c₂ hc₂ ⟨hwf, hlevel, hfront⟩ hopen
    refine .advance_bind hopen (.bind_pure ((arguments_breaks hs hg hc₂.advance).mono ?_) _)
    rintro full (hmisassigned | ⟨es, hwfs, rfl⟩)
    · exact Spellings.misassigned _ _ hmisassigned
    · refine .inr ⟨.call e es .unknown, ⟨hlevel, hwf, hwfs⟩, Nat.le_refl _, ?_⟩
      simp [Expr.spelled, hfront]

theorem unary_breaks (hs : g.expression.SoundAt 0) (hg : g.Breaks) : (unary g).BreaksAt 7 := by
  intro c hc
  unfold unary
  refine .look_bind run_current ?_
  split
  · rename_i op hop
    obtain ⟨hnegation, hsign⟩ := negation?_eq_some_iff.1 hop
    refine .advance_bind hsign (.bind_pure ((hg.operand hc.advance).lastExpression ?_) _)
    exact fun e hwf hlevel =>
      .inr ⟨.unary op e .unknown, ⟨hnegation, hlevel, hwf⟩, Nat.le_refl _, rfl⟩
  · exact (call_breaks hs hg.expression hc).lastExpression fun e hwf hlevel =>
      .inr ⟨e, hwf, by omega, rfl⟩

/-! ## Operations -/

/-- An `operation` that is broken off behind its left operand. -/
theorem operation_breaks {right : Int → Reading Expr} {least : Int} {k : Nat}
    (hleast : Admits least k)
    (hright : ∀ p : Nat, p ≤ 4 → k ≤ p + 2 → (right (p + 1)).BreaksAt (p + 3))
    {left : Expr} {c : Cursor} (hc : c.Closed) (hwf : left.WellFormed)
    (hstop : ¬ c.Extends (min 7 (left.level + 1))) :
    (operation least right left).Breaks c ((Expr.spellings k).behind left.spelled) := by
  unfold operation
  refine .look_bind run_current ?_
  split
  · exact .pure _
  · rename_i op p hop
    obtain ⟨hw, hp, hle⟩ := operation?_eq_some_iff.1 hop
    obtain ⟨hp1, hp4⟩ : 1 ≤ p ∧ p ≤ 4 := Operator.precedence?_le hp
    have hkp : k ≤ p + 2 := (hleast p hp1 hp4).1 hle
    have hlevel : op.level = p + 2 := Operator.level_of_precedence? hp
    have hleft : p + 2 < min 7 (left.level + 1) :=
      Nat.lt_of_not_le fun hle => hstop ⟨_, _, hw, Word.binding?_spelling hp, hle⟩
    refine .advance_bind hw (.bind_pure ((hright p hp4 hkp hc.advance).lastExpression ?_) _)
    intro e hwf' hlevel'
    refine .inr ⟨.binary op left e .unknown, ⟨by simp [hp], by omega, by omega, hwf, hwf'⟩, ?_, rfl⟩
    simp only [Expr.level]; omega

theorem climb_breaks {operand : Reading Expr} (hs : operand.SoundAt 7) (hb : operand.BreaksAt 7)
    {levels : Nat} {least : Int} {k : Nat} (hlevels : 7 ≤ levels + k) (hk : 3 ≤ k) (hk' : k ≤ 7)
    (hleast : Admits least k) : (climb operand levels least).BreaksAt k := by
  induction levels generalizing least k with
  | zero =>
    obtain rfl : k = 7 := by omega
    exact hb
  | succ levels ih =>
    intro c hc
    have hright : ∀ p : Nat, p ≤ 4 → k ≤ p + 2 →
        (climb operand levels (p + 1)).BreaksAt (p + 3) :=
      fun p _ _ => ih (by omega) (by omega) (by omega) fun q _ _ => by omega
    have hsound : ∀ p : Nat, p ≤ 4 → k ≤ p + 2 →
        (climb operand levels (p + 1)).SoundAt (p + 3) :=
      fun p _ _ => climb_sound hs (by omega) (by omega) (by omega) fun q _ _ => by omega
    refine .bind ((hb hc).lastExpression fun e hwf hlevel => .inr ⟨e, hwf, by omega, rfl⟩)
      fun first c₁ hfirst => ?_
    obtain ⟨hwf, hlevel, hspells, hstop⟩ := hs hc hfirst
    refine ⟨_, hspells, .repeatFrom
      (I := fun left front c₂ => left.WellFormed ∧ ¬ c₂.Extends (min 7 (left.level + 1)) ∧
        left.spelled = first.spelled ++ front)
      ?_ ?_ (hspells.closed hc)
      ⟨hwf, fun hext => hstop (hext.mono (by omega)), by simp⟩⟩
    · rintro left e front c₂ c₃ hc₂ ⟨hwf, hstop, hfront⟩ hstep
      obtain ⟨hwf', -, hstop', w, words, hspelled, hpassed⟩ :=
        operation_sound hleast hsound hc₂ hwf hstop hstep
      exact ⟨w, words, hpassed, hwf', hstop', by rw [hspelled, hfront, List.append_assoc]⟩
    · rintro left front c₂ hc₂ ⟨hwf, hstop, hfront⟩
      refine (operation_breaks hleast hright hc₂ hwf hstop).mono fun full hfull => ?_
      simpa [Spellings.behind, hfront] using hfull

theorem binary_breaks (hs : g.Sound) (hg : g.Breaks) : (binary g 1).BreaksAt 3 := by
  have hleast : Admits 1 3 := fun p _ _ => by omega
  have hlevels : 7 ≤ Operator.levels + 3 := by decide
  exact climb_breaks (unary_sound hs.expression hs.operand) (unary_breaks hs.expression hg) hlevels
    (by omega) (by omega) hleast

theorem joined_breaks {op : Operator} {operand : Reading Expr} (hop : op = .and ∨ op = .or)
    (hs : operand.SoundAt (op.level + 1)) (hb : operand.BreaksAt (op.level + 1)) :
    (joined op operand).BreaksAt op.level := by
  intro c hc
  refine .bind ((hb hc).lastExpression fun e hwf hlevel => .inr ⟨e, hwf, by omega, rfl⟩)
    fun first c₁ hfirst => ?_
  obtain ⟨hwf, hlevel, hspells, -⟩ := hs hc hfirst
  refine ⟨_, hspells, .whileSees
    (I := fun left front _ => left.WellFormed ∧ op.level ≤ left.level ∧
      left.spelled = first.spelled ++ front)
    (fun _ => run_seesKeyword (keywordValue?_spelling hop)) ?_ ?_ (hspells.closed hc)
    ⟨hwf, by omega, by simp⟩⟩
  · rintro left e front c₂ c₃ hc₂ ⟨hwf, hlevel, hfront⟩ hw hstep
    obtain ⟨hwf', hlevel', -, words, hspelled, hpassed⟩ :=
      junction_sound hop hs hc₂ hwf hlevel hw hstep
    exact ⟨_, words, hpassed, hwf', hlevel', by rw [hspelled, hfront, List.append_assoc]⟩
  · rintro left front c₂ hc₂ ⟨hwf, hlevel, hfront⟩ hw
    refine .advance_bind hw (.bind_pure ?_ _)
    refine (hb hc₂.advance).lastExpression fun e hwf' hlevel' => ?_
    refine .inr ⟨.logical op left e .unknown, ⟨hop, hlevel, hlevel', hwf, hwf'⟩, Nat.le_refl _, ?_⟩
    simp [Expr.spelled, hfront]

theorem disjunction_breaks (hs : g.Sound) (hg : g.Breaks) : (disjunction g).BreaksAt 1 :=
  joined_breaks (.inr rfl) (joined_sound (.inl rfl) (binary_sound hs.expression hs.operand))
    (joined_breaks (.inl rfl) (binary_sound hs.expression hs.operand) (binary_breaks hs hg))

/-! ## Assignments -/

/-- What stands on the left side of an `assignment` may be no variable. Where the right side is
    broken off, that has not been found out yet. -/
theorem assignment_breaks (hs : g.Sound) (hg : g.Breaks) : (assignment g).BreaksAt 0 := by
  intro c hc
  refine .bind ((disjunction_breaks hs hg hc).lastExpression fun e hwf hlevel =>
    .inr ⟨e, hwf, by omega, rfl⟩) fun target c₁ htarget => ?_
  obtain ⟨hwf, hlevel, hspells, -⟩ := disjunction_sound hs.expression hs.operand hc htarget
  have hc₁ := hspells.closed hc
  refine ⟨_, hspells, .look_bind run_current ?_⟩
  split
  · rename_i hequals
    rw [Token.is_operator, decide_eq_true_iff] at hequals
    refine .advance_bind hequals (.bind ?_ fun value c₂ hvalue => ?_)
    · refine (hg.expression hc₁.advance).lastExpression fun value hwf' _ => ?_
      by_cases hvariable : ∃ name p, target = .identifier name p
      · obtain ⟨name, p, rfl⟩ := hvariable
        exact .inr ⟨.assignment name value .unknown, hwf', Nat.le_refl _, rfl⟩
      · exact .inl (Expr.misassigned hwf hlevel (fun name p h => hvariable ⟨name, p, h⟩) _)
    · obtain ⟨-, -, hspells', -⟩ := hs.expression hc₁.advance hvalue
      refine ⟨_, hspells', ?_⟩
      split
      · exact .pure _
      · exact .refuseAt (Token.isEnd_eq_false hequals) _
  · exact .pure _

end Grammar

end Scripting
