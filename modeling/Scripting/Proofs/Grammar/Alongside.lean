import Scripting.Proofs.Grammar.Correspondence
import Scripting.Proofs.Grammar.Ending

set_option autoImplicit false

/-! # Two readings side by side

Corresponding tokens are read alike, which `Reading.Alike` says of two readings. The two sequences
of tokens may also part at a `Seam`: the first closes with an end of input where the second goes on.
Up to there the readings do the same, and a reading of the first that does not come to its end has
met nothing of what is behind the seam. One that ends at the seam may still have looked at the next
token; where it has not, it is told of as `Tight`. One that is refused for what stands before the
seam is refused whatever is behind it. -/

namespace Scripting

/-! ## Corresponding tokens -/

/-- Whether the tokens `t` and `t'` are read alike: they are of one kind and text, and the values of
    literals and the positions correspond by `k`, seen with the word of the token and without it. A
    refusal may blame the one and the other. -/
structure Correspondence.Tokens (k : Correspondence) (t t' : Token) : Prop where
  kind : t'.kind = t.kind
  lexeme : t'.lexeme = t.lexeme
  literal : Option.Rel k.literal (Grammar.literalValue? t) (Grammar.literalValue? t')
  place : k.point none t.position t'.position
  word : k.point t.word? t.position t'.position
  token : k.token t t'

namespace Correspondence.Tokens

variable {k : Correspondence} {t t' : Token}

theorem isEnd_eq (h : k.Tokens t t') : t'.isEnd = t.isEnd := by
  simp [Token.isEnd, h.kind]

theorem is_eq (h : k.Tokens t t') (kind : TokenKind) (s : String) : t'.is kind s = t.is kind s := by
  simp [Token.is, h.kind, h.lexeme]

theorem matches?_eq (h : k.Tokens t t') (kind : TokenKind) (lexeme : Option String) :
    t'.matches? kind lexeme = t.matches? kind lexeme := by
  simp [Token.matches?, h.kind, h.lexeme]

/-- A token is read like itself if its value and its position correspond to themselves by `k`. -/
theorem self (hliteral : ∀ v ∈ Grammar.literalValue? t, k.literal v v)
    (hplace : k.point none t.position t.position) (hword : k.point t.word? t.position t.position)
    (htoken : k.token t t) : k.Tokens t t where
  kind := rfl
  lexeme := rfl
  literal := by
    cases hv : Grammar.literalValue? t with
    | none => exact .none
    | some v => exact .some (hliteral v hv)
  place := hplace
  word := hword
  token := htoken

end Correspondence.Tokens

/-- Refusals for tokens that correspond by `k`. -/
inductive Correspondence.Refusals (k : Correspondence) : Refusal → Refusal → Prop
  | tooDeep : Refusals k .tooDeep .tooDeep
  | atToken (v : Violation) {t t' : Token} (h : k.Tokens t t') :
    Refusals k (.fault (.atToken v t)) (.fault (.atToken v t'))

/-! ## Seams -/

/-- Where two sequences of tokens part: `never`, or at an end of input of the first, the `last` of
    its tokens, while the second goes on with `first` and `rest`. -/
inductive Seam where
  | never
  | parts (last first : Token) (rest : List Token) (hlast : last.isEnd = true)

namespace Seam

/-- What is left of the first sequence at the seam. -/
def before : Seam → List Token
  | .never => []
  | .parts last _ _ _ => [last]

/-- What is left of the second sequence at the seam. -/
def behind : Seam → List Token
  | .never => []
  | .parts _ first rest _ => first :: rest

/-- Whether the second sequence goes on with an `else`, which a conditional in front of the seam
    takes. -/
def OpensElse : Seam → Prop
  | .never => False
  | .parts _ first _ _ => first.is .keyword "else" = true

end Seam

namespace Cursor

variable {k : Correspondence} {σ : Seam} {c c' : Cursor}

/-- Whether `c` and `c'` stand on tokens before the seam `σ` that correspond by `k`. -/
structure Alongside (k : Correspondence) (σ : Seam) (c c' : Cursor) : Prop where
  tokens : ∃ ts ts', List.Forall₂ k.Tokens ts ts' ∧ ts ≠ [] ∧
    c.current :: c.ahead = ts ++ σ.before ∧ c'.current :: c'.ahead = ts' ++ σ.behind
  closed : c.Closed
  loops : c'.loops = c.loops
  functions : c'.functions = c.functions

/-- Whether a cursor in the first sequence has come to the seam `σ`. -/
def AtSeam (σ : Seam) (c : Cursor) : Prop :=
  c.current :: c.ahead = σ.before

/-- Whether a cursor in the first sequence has come to the seam `σ`, and an `else` is behind it. -/
def BeforeElse (σ : Seam) (c : Cursor) : Prop :=
  c.AtSeam σ ∧ σ.OpensElse

/-- Whether the cursors `c` and `c'` have come to the seam `σ`. -/
structure Meets (σ : Seam) (c c' : Cursor) : Prop where
  before : c.AtSeam σ
  behind : c'.current :: c'.ahead = σ.behind
  loops : c'.loops = c.loops
  functions : c'.functions = c.functions

theorem AtSeam.isEnd (h : c.AtSeam σ) : c.current.isEnd = true := by
  cases σ with
  | never => cases h
  | parts last first rest hlast => cases (List.cons.inj h).1; exact hlast

theorem AtSeam.ne_never (h : c.AtSeam σ) : σ ≠ .never := by
  rintro rfl
  cases h

/-- Before the seam there is nothing more, and behind it an `else` only if it `OpensElse`. -/
theorem Meets.matches?_else (h : c.Meets σ c') :
    c.current.matches? .keyword (some "else") = false ∧
      (¬ σ.OpensElse → c'.current.matches? .keyword (some "else") = false) := by
  constructor
  · have hend := h.before.isEnd
    simp only [Token.isEnd, decide_eq_true_eq] at hend
    simp [Token.matches?, hend]
  · intro helse
    have hbehind := h.behind
    cases σ with
    | never => cases hbehind
    | parts last first rest hlast =>
      rw [(List.cons.inj hbehind).1]
      exact Bool.eq_false_iff.2 helse

namespace Alongside

theorem current (h : c.Alongside k σ c') : k.Tokens c.current c'.current := by
  obtain ⟨ts, ts', hts, hne, hc, hc'⟩ := h.tokens
  cases hts with
  | nil => exact absurd rfl hne
  | cons ht _ =>
    cases (List.cons.inj hc).1
    cases (List.cons.inj hc').1
    exact ht

/-- What is left `ahead` in the two sequences differs by what is left at the seam. -/
theorem length_ahead (h : c.Alongside k σ c') :
    c'.ahead.length + σ.before.length = c.ahead.length + σ.behind.length := by
  obtain ⟨ts, ts', hts, -, hc, hc'⟩ := h.tokens
  have hlength := congrArg List.length hc
  have hlength' := congrArg List.length hc'
  have heq := hts.length_eq
  simp only [List.length_cons, List.length_append] at hlength hlength'
  omega

theorem withCounts (h : c.Alongside k σ c') (loops functions : Nat) :
    (c.withCounts loops functions).Alongside k σ (c'.withCounts loops functions) :=
  ⟨h.tokens, h.closed, rfl, rfl⟩

/-- After `advance` the next tokens correspond too, or are those at the seam. -/
theorem advance (h : c.Alongside k σ c') :
    c.advance.Alongside k σ c'.advance ∨ c.advance.Meets σ c'.advance := by
  cases hend : c.current.isEnd with
  | true =>
    have hstay : c.advance = c := by simp [Cursor.advance, hend]
    have hstay' : c'.advance = c' := by simp [Cursor.advance, h.current.isEnd_eq, hend]
    exact .inl (hstay.symm ▸ hstay'.symm ▸ h)
  | false =>
    have hend' : c'.current.isEnd = false := h.current.isEnd_eq.trans hend
    have step : ∀ {d : Cursor} {t : Token} {rest : List Token}, d.current.isEnd = false →
        d.ahead = t :: rest → d.advance.current :: d.advance.ahead = t :: rest := by
      intro d t rest hend hahead
      simp [Cursor.advance, hend, hahead]
    obtain ⟨t, rest, hahead, -⟩ := advance_of_closed h.closed hend
    obtain ⟨ts, ts', hts, hne, hc, hc'⟩ := h.tokens
    cases hts with
    | nil => exact absurd rfl hne
    | cons _ hrest =>
      have hc := (List.cons.inj hc).2
      have hc' := (List.cons.inj hc').2
      cases hrest with
      | cons hu hrest =>
        exact .inl ⟨⟨_, _, .cons hu hrest, by simp, step hend hc, step hend' hc'⟩, h.closed.advance,
          by simp [h.loops], by simp [h.functions]⟩
      | nil =>
        -- the token passed was the last one before the seam
        cases σ with
        | never => cases hahead.symm.trans hc
        | parts last first rest hlast =>
          exact .inr ⟨step hend hc, step hend' hc', by simp [h.loops], by simp [h.functions]⟩

end Alongside

end Cursor

/-! ## Readings that do the same -/

namespace Reading

variable {k : Correspondence} {σ : Seam} {lost : Cursor → Prop} {α α' β β' : Type}
  {c c' : Cursor} {P : α → α' → Prop} {Q : β → β' → Prop}

/-- Whether the readings `r` and `r'` do the same from `c` and `c'` on, and end with results that
    correspond by `P` before the seam or at it, unless the first one is `lost` in the end. If the
    first is refused, so is the second, unless the first is so for having come to its end. Without a
    seam the refusals correspond. -/
structure Alike (k : Correspondence) (σ : Seam) (lost : Cursor → Prop) (P : α → α' → Prop)
    (r : Reading α) (r' : Reading α') (c c' : Cursor) : Prop where
  ok : ∀ {a : α} {c₁ : Cursor}, r.run c = .ok a c₁ → lost c₁ ∨
    ∃ a' c₁', r'.run c' = .ok a' c₁' ∧ P a a' ∧ (c₁.Alongside k σ c₁' ∨ c₁.Meets σ c₁')
  error : ∀ {e : Refusal} {c₁ : Cursor}, r.run c = .error e c₁ → (σ ≠ .never ∧ e.BlamesEnd) ∨
    ∃ e' c₁', r'.run c' = .error e' c₁' ∧ (σ = .never → k.Refusals e e')

/-- Readings that do the same as long as the first one does not come to the seam. -/
abbrev Loose (k : Correspondence) (σ : Seam) (P : α → α' → Prop) (r : Reading α) (r' : Reading α')
    (c c' : Cursor) : Prop :=
  Alike k σ (Cursor.AtSeam σ) P r r' c c'

/-- Readings that do the same up to the seam and look behind it for nothing but an `else`. -/
abbrev Firm (k : Correspondence) (σ : Seam) (P : α → α' → Prop) (r : Reading α) (r' : Reading α')
    (c c' : Cursor) : Prop :=
  Alike k σ (Cursor.BeforeElse σ) P r r' c c'

/-- Readings that do the same up to the seam and do not look behind it. -/
abbrev Tight (k : Correspondence) (σ : Seam) (P : α → α' → Prop) (r : Reading α) (r' : Reading α')
    (c c' : Cursor) : Prop :=
  Alike k σ (fun _ => False) P r r' c c'

namespace Alike

theorem pure {a : α} {a' : α'} (hc : c.Alongside k σ c') (ha : P a a') :
    Alike k σ lost P (Pure.pure a) (Pure.pure a') c c' where
  ok hr := by
    obtain ⟨rfl, rfl⟩ := run_pure_eq_ok.1 hr
    exact .inr ⟨a', c', rfl, ha, .inl hc⟩
  error hr := nomatch hr

theorem pure_of_meets {a : α} {a' : α'} (hc : c.Meets σ c') (ha : P a a') :
    Alike k σ lost P (Pure.pure a) (Pure.pure a') c c' where
  ok hr := by
    obtain ⟨rfl, rfl⟩ := run_pure_eq_ok.1 hr
    exact .inr ⟨a', c', rfl, ha, .inr hc⟩
  error hr := nomatch hr

theorem throw {e e' : Refusal} (h : k.Refusals e e') :
    Alike k σ lost P (MonadExcept.throw e : Reading α) (MonadExcept.throw e' : Reading α') c
      c' where
  ok hr := nomatch hr
  error hr := by
    cases hr
    exact .inr ⟨e', c', rfl, fun _ => h⟩

theorem expected (what : Expectation) (hc : c.Alongside k σ c') :
    Alike k σ lost P (expected what : Reading α) (Reading.expected what : Reading α') c c' where
  ok hr := nomatch hr
  error hr := by
    cases hr
    exact .inr ⟨_, c', rfl, fun _ => .atToken _ hc.current⟩

/-- What would follow a refusal of `r` and `r'` does not matter. -/
theorem bind_of_error {r : Reading α} {r' : Reading α'} {f : α → Reading β} {f' : α' → Reading β'}
    {e e' : Refusal} {c₁ c₁' : Cursor} (hr : r.run c = .error e c₁)
    (hr' : r'.run c' = .error e' c₁') (h : k.Refusals e e') :
    Alike k σ lost Q (r >>= f) (r' >>= f') c c' where
  ok hrun := by
    rw [EStateM.run_bind, hr] at hrun
    cases hrun
  error hrun := by
    rw [EStateM.run_bind, hr] at hrun
    cases hrun
    exact .inr ⟨e', c₁', by rw [EStateM.run_bind, hr'], fun _ => h⟩

theorem refuseAt_bind (v : Violation) {t t' : Token} (ht : k.Tokens t t') {f : α → Reading β}
    {f' : α' → Reading β'} :
    Alike k σ lost Q (Reading.refuseAt v t >>= f) (Reading.refuseAt v t' >>= f') c c' :=
  .bind_of_error (run_refuseAt v t) (run_refuseAt v t') (.atToken v ht)

theorem expected_bind (what : Expectation) (hc : c.Alongside k σ c') {f : α → Reading β}
    {f' : α' → Reading β'} :
    Alike k σ lost Q (Reading.expected what >>= f) (Reading.expected what >>= f') c c' :=
  .bind_of_error (run_expected what) (run_expected what) (.atToken _ hc.current)

theorem ite {p p' : Prop} [Decidable p] [Decidable p'] {r s : Reading α} {r' s' : Reading α'}
    (hiff : p' ↔ p) (hpos : p → Alike k σ lost P r r' c c')
    (hneg : ¬ p → Alike k σ lost P s s' c c') :
    Alike k σ lost P (if p then r else s) (if p' then r' else s') c c' := by
  by_cases h : p
  · rw [if_pos h, if_pos (hiff.2 h)]
    exact hpos h
  · rw [if_neg h, if_neg (mt hiff.1 h)]
    exact hneg h

theorem map {r : Reading α} {r' : Reading α'} {f : α → β} {f' : α' → β'}
    (h : Alike k σ lost P r r' c c') (hf : ∀ {a a'}, P a a' → Q (f a) (f' a')) :
    Alike k σ lost Q (do let a ← r; return f a) (do let a ← r'; return f' a) c c' where
  ok hr := by
    obtain ⟨a, c₁, hrun, hfa⟩ := run_bind_eq_ok.1 hr
    obtain ⟨rfl, rfl⟩ := run_pure_eq_ok.1 hfa
    rcases h.ok hrun with hlost | ⟨a', c₁', hrun', ha, hc₁⟩
    · exact .inl hlost
    · exact .inr ⟨f' a', c₁', run_bind_of_ok hrun', hf ha, hc₁⟩
  error hr := by
    rw [EStateM.run_bind] at hr
    split at hr
    · cases hr
    · rename_i e c₁ hrun
      cases hr
      rcases h.error hrun with hend | ⟨e', c₁', hrun', he⟩
      · exact .inl hend
      · exact .inr ⟨e', c₁', by rw [EStateM.run_bind, hrun'], he⟩

/-- Looking at the token under the cursor. -/
theorem current_bind {f : Token → Reading β} {f' : Token → Reading β'}
    (h : Alike k σ lost Q (f c.current) (f' c'.current) c c') :
    Alike k σ lost Q (current >>= f) (current >>= f') c c' :=
  ⟨h.ok, h.error⟩

/-- Looking at the counts around the cursor. -/
theorem get_bind {f : Cursor → Reading β} {f' : Cursor → Reading β'}
    (h : Alike k σ lost Q (f c) (f' c') c c') :
    Alike k σ lost Q (get >>= f) (get >>= f') c c' :=
  ⟨h.ok, h.error⟩

/-- Looking by `check` whether the tokens under the cursors have some `kind` and `lexeme`. -/
theorem check_bind_of_eq {kind : TokenKind} {lexeme : Option String} {f : Bool → Reading β}
    {f' : Bool → Reading β'}
    (heq : c'.current.matches? kind lexeme = c.current.matches? kind lexeme)
    (h : ∀ b, b = c.current.matches? kind lexeme → Alike k σ lost Q (f b) (f' b) c c') :
    Alike k σ lost Q (check kind lexeme >>= f) (check kind lexeme >>= f') c c' := by
  have h' : Alike k σ lost Q (f (c.current.matches? kind lexeme))
      (f' (c'.current.matches? kind lexeme)) c c' := by
    rw [heq]
    exact h _ rfl
  exact ⟨h'.ok, h'.error⟩

theorem check_bind {kind : TokenKind} {lexeme : Option String} {f : Bool → Reading β}
    {f' : Bool → Reading β'} (hc : c.Alongside k σ c')
    (h : ∀ b, b = c.current.matches? kind lexeme → Alike k σ lost Q (f b) (f' b) c c') :
    Alike k σ lost Q (check kind lexeme >>= f) (check kind lexeme >>= f') c c' :=
  .check_bind_of_eq (hc.current.matches?_eq _ _) h

/-- Taking the token under the cursor, by `advance`. -/
theorem advance (hc : c.Alongside k σ c') :
    Alike k σ lost k.Tokens advance Reading.advance c c' where
  ok hr := by
    cases hr
    exact .inr ⟨_, _, rfl, hc.current, hc.advance⟩
  error hr := nomatch hr

/-- Taking a token that has to be there, by `take`. -/
theorem take {kind : TokenKind} {lexeme : Option String} (hc : c.Alongside k σ c') :
    Alike k σ lost k.Tokens (take kind lexeme) (Reading.take kind lexeme) c c' :=
  .check_bind hc fun _ _ => .ite .rfl (fun _ => .advance hc) fun _ => .expected _ hc

/-- Two cursors with the same counts are left with the same counts. -/
theorem surrounded {enter : Cursor → Cursor} {leave : Cursor → Cursor → Cursor} {r : Reading α}
    {r' : Reading α'} (h : Alike k σ lost P r r' (enter c) (enter c'))
    (hlost : ∀ {c₁}, lost c₁ → lost (leave c c₁))
    (hleave : ∀ {c₁ c₁' : Cursor}, c₁'.loops = c₁.loops → c₁'.functions = c₁.functions →
      ∃ loops functions, leave c c₁ = c₁.withCounts loops functions ∧
        leave c' c₁' = c₁'.withCounts loops functions) :
    Alike k σ lost P (surrounded enter leave r) (surrounded enter leave r') c c' where
  ok hr := by
    obtain ⟨c₁, hrun, rfl⟩ := run_surrounded_eq_ok.1 hr
    rcases h.ok hrun with hlost' | ⟨a', c₁', hrun', ha, hc₁⟩
    · exact .inl (hlost hlost')
    · refine .inr ⟨a', _, run_surrounded_eq_ok.2 ⟨c₁', hrun', rfl⟩, ha, ?_⟩
      rcases hc₁ with hc₁ | hmeets
      · obtain ⟨loops, functions, hleft, hleft'⟩ := hleave hc₁.loops hc₁.functions
        rw [hleft, hleft']
        exact .inl (hc₁.withCounts _ _)
      · obtain ⟨loops, functions, hleft, hleft'⟩ := hleave hmeets.loops hmeets.functions
        rw [hleft, hleft']
        exact .inr ⟨hmeets.before, hmeets.behind, rfl, rfl⟩
  error hr := by
    obtain ⟨c₁, hrun, -⟩ := run_surrounded_eq_error.1 hr
    rcases h.error hrun with hend | ⟨e', c₁', hrun', he⟩
    · exact .inl hend
    · exact .inr ⟨e', _, run_surrounded_eq_error.2 ⟨c₁', hrun', rfl⟩, he⟩

/-- What follows the reading `r` does the same where that has ended. Where `r` is `lost₁`, what
    follows is `lost` as well, or has come to the end of the first sequence. -/
theorem bind_of_run {lost₁ : Cursor → Prop} {r : Reading α} {r' : Reading α'} {f : α → Reading β}
    {f' : α' → Reading β'} (h : Alike k σ lost₁ P r r' c c')
    (hnever : ∀ {c₁}, lost₁ c₁ → σ ≠ .never)
    (hlost : ∀ {a b c₁ c₂}, lost₁ c₁ → (f a).run c₁ = .ok b c₂ → lost c₂)
    (hblames : ∀ {a e c₁ c₂}, lost₁ c₁ → (f a).run c₁ = .error e c₂ → e.BlamesEnd)
    (hf : ∀ {a a' c₁ c₁'}, r.run c = .ok a c₁ → P a a' → c₁.Alongside k σ c₁' ∨ c₁.Meets σ c₁' →
      Alike k σ lost Q (f a) (f' a') c₁ c₁') :
    Alike k σ lost Q (r >>= f) (r' >>= f') c c' where
  ok hr := by
    obtain ⟨a, c₁, hrun, hfa⟩ := run_bind_eq_ok.1 hr
    rcases h.ok hrun with hc₁ | ⟨a', c₁', hrun', ha, hc₁⟩
    · exact .inl (hlost hc₁ hfa)
    · rw [run_bind_of_ok hrun']
      exact (hf hrun ha hc₁).ok hfa
  error hr := by
    rw [EStateM.run_bind] at hr
    split at hr
    · rename_i a c₁ hrun
      rcases h.ok hrun with hc₁ | ⟨a', c₁', hrun', ha, hc₁⟩
      · exact .inl ⟨hnever hc₁, hblames hc₁ hr⟩
      · rw [run_bind_of_ok hrun']
        exact (hf hrun ha hc₁).error hr
    · rename_i e c₁ hrun
      cases hr
      rcases h.error hrun with hend | ⟨e', c₁', hrun', he⟩
      · exact .inl hend
      · exact .inr ⟨e', c₁', by rw [EStateM.run_bind, hrun'], he⟩

/-- Where the first reading does not move, it has only to be `lost`. -/
theorem of_run {r : Reading α} {r' : Reading α'} {a : α} (hrun : r.run c = .ok a c)
    (hlost : lost c) : Alike k σ lost P r r' c c' := by
  refine ⟨fun hr => ?_, fun hr => ?_⟩
  · cases hrun.symm.trans hr
    exact .inl hlost
  · cases hrun.symm.trans hr

theorem mono {lost' : Cursor → Prop} {r : Reading α} {r' : Reading α'}
    (h : Alike k σ lost P r r' c c') (hlost : ∀ {c₁}, lost c₁ → lost' c₁) :
    Alike k σ lost' P r r' c c' :=
  ⟨fun hr => (h.ok hr).imp_left hlost, h.error⟩

/-- At the seam the first reading is refused for having come to its end, as it `Refuses` there. -/
theorem of_refuses {r : Reading α} {r' : Reading α'} (hc : c.Meets σ c') (h : r.Refuses) :
    Alike k σ lost P r r' c c' := by
  obtain ⟨e, c₁, hrun, he⟩ := h hc.before.isEnd
  refine ⟨fun hr => ?_, fun hr => ?_⟩
  · cases hrun.symm.trans hr
  · cases hrun.symm.trans hr
    exact .inl ⟨hc.before.ne_never, he⟩

end Alike

theorem Tight.insideLoop {r : Reading α} {r' : Reading α'}
    (h : ∀ {c c'}, c.Alongside k σ c' → Tight k σ P r r' c c') (hc : c.Alongside k σ c') :
    Tight k σ P (insideLoop r) (insideLoop r') c c' :=
  .surrounded (h ⟨hc.tokens, hc.closed, congrArg (· + 1) hc.loops, hc.functions⟩) id
    fun {c₁ c₁'} hloops hfunctions => ⟨c₁.loops - 1, c₁.functions, rfl, by
      simp only [Cursor.leaveLoop, Cursor.withCounts, hloops, hfunctions]⟩

theorem Tight.insideFunction {r : Reading α} {r' : Reading α'}
    (h : ∀ {c c'}, c.Alongside k σ c' → Tight k σ P r r' c c') (hc : c.Alongside k σ c') :
    Tight k σ P (insideFunction r) (insideFunction r') c c' :=
  .surrounded (h ⟨hc.tokens, hc.closed, rfl, congrArg (· + 1) hc.functions⟩) id
    fun {c₁ c₁'} _ hfunctions => ⟨c.loops, c₁.functions - 1, rfl, by
      simp only [Cursor.leaveFunction, Cursor.withCounts, hc.loops, hfunctions]⟩

theorem Firm.loose {r : Reading α} {r' : Reading α'} (h : Firm k σ P r r' c c') :
    Loose k σ P r r' c c' :=
  h.mono And.left

theorem Tight.alike {r : Reading α} {r' : Reading α'} (h : Tight k σ P r r' c c') :
    Alike k σ lost P r r' c c' :=
  h.mono False.elim

/-- What follows does the same at the seam as well. -/
theorem Tight.bind_at_seam {r : Reading α} {r' : Reading α'} {f : α → Reading β}
    {f' : α' → Reading β'} (h : Tight k σ P r r' c c')
    (hf : ∀ {a a' c₁ c₁'}, P a a' → c₁.Alongside k σ c₁' ∨ c₁.Meets σ c₁' →
      Alike k σ lost Q (f a) (f' a') c₁ c₁') : Alike k σ lost Q (r >>= f) (r' >>= f') c c' :=
  h.bind_of_run False.elim (fun hlost => hlost.elim) (fun hlost => hlost.elim) fun _ => hf

/-- What would follow at the seam is refused there. -/
theorem Loose.bind_refuses {r : Reading α} {r' : Reading α'} {f : α → Reading β}
    {f' : α' → Reading β'} (h : Loose k σ P r r' c c') (hrefuses : ∀ a, (f a).Refuses)
    (hf : ∀ {a a' c₁ c₁'}, P a a' → c₁.Alongside k σ c₁' →
      Alike k σ lost Q (f a) (f' a') c₁ c₁') : Alike k σ lost Q (r >>= f) (r' >>= f') c c' := by
  have hend {a : α} {c₁ : Cursor} (hc₁ : c₁.AtSeam σ) := hrefuses a hc₁.isEnd
  refine h.bind_of_run Cursor.AtSeam.ne_never ?_ ?_ ?_
  · intro a b c₁ c₂ hc₁ hr
    obtain ⟨e, c₃, hrun, -⟩ := hend hc₁
    cases hrun.symm.trans hr
  · intro a e c₁ c₂ hc₁ hr
    obtain ⟨e', c₃, hrun, he⟩ := hend hc₁
    cases hrun.symm.trans hr
    exact he
  · rintro a a' c₁ c₁' - ha (hc₁ | hmeets)
    · exact hf ha hc₁
    · exact .of_refuses hmeets (hrefuses a)

namespace Loose

/-- At the seam the first reading has only to stay there, as one does that `Settles`. -/
theorem of_settles {r : Reading α} {r' : Reading α'} (hc : c.Meets σ c') (h : r.Settles) :
    Loose k σ P r r' c c' := by
  rcases h hc.before.isEnd with ⟨a, hrun⟩ | ⟨e, c₁, hrun, he⟩
  · exact .of_run hrun hc.before
  · refine ⟨fun hr => ?_, fun hr => ?_⟩
    · cases hrun.symm.trans hr
    · cases hrun.symm.trans hr
      exact .inl ⟨hc.before.ne_never, he⟩

/-- What follows at the seam does not lead away from it. -/
theorem bind_of_run {r : Reading α} {r' : Reading α'} {f : α → Reading β} {f' : α' → Reading β'}
    (h : Loose k σ P r r' c c') (hsettles : ∀ a, (f a).Settles)
    (hf : ∀ {a a' c₁ c₁'}, r.run c = .ok a c₁ → P a a' → c₁.Alongside k σ c₁' →
      Loose k σ Q (f a) (f' a') c₁ c₁') : Loose k σ Q (r >>= f) (r' >>= f') c c' := by
  refine Alike.bind_of_run h Cursor.AtSeam.ne_never ?_ ?_ ?_
  · intro a b c₁ c₂ hc₁ hr
    rcases hsettles a hc₁.isEnd with ⟨b', hrun⟩ | ⟨e, c₃, hrun, -⟩
    · cases hrun.symm.trans hr
      exact hc₁
    · cases hrun.symm.trans hr
  · intro a e c₁ c₂ hc₁ hr
    rcases hsettles a hc₁.isEnd with ⟨b', hrun⟩ | ⟨e', c₃, hrun, he⟩
    · cases hrun.symm.trans hr
    · cases hrun.symm.trans hr
      exact he
  · rintro a a' c₁ c₁' hrun ha (hc₁ | hmeets)
    · exact hf hrun ha hc₁
    · exact Loose.of_settles hmeets (hsettles a)

theorem bind {r : Reading α} {r' : Reading α'} {f : α → Reading β} {f' : α' → Reading β'}
    (h : Loose k σ P r r' c c') (hsettles : ∀ a, (f a).Settles)
    (hf : ∀ {a a' c₁ c₁'}, P a a' → c₁.Alongside k σ c₁' → Loose k σ Q (f a) (f' a') c₁ c₁') :
    Loose k σ Q (r >>= f) (r' >>= f') c c' :=
  h.bind_of_run hsettles fun _ => hf

/-- A refusal by `refuseAt` that follows for something read before is one on both sides, even where
    the first reading has come to the seam and the second one goes on. -/
theorem bind_refuseAt {r : Reading α} {r' : Reading α'} (h : Loose k σ P r r' c c') (v : Violation)
    {t t' : Token} (ht : k.Tokens t t') :
    Loose k σ Q (r >>= fun _ => refuseAt v t) (r' >>= fun _ => Reading.refuseAt v t') c c' where
  ok hr := by
    obtain ⟨_, _, -, hrefuse⟩ := run_bind_eq_ok.1 hr
    cases hrefuse
  error hr := by
    rw [EStateM.run_bind] at hr
    split at hr
    · rename_i a c₁ hrun
      cases hr
      right
      cases hrun' : r'.run c' with
      | ok a' c₁' => exact ⟨_, c₁', by rw [run_bind_of_ok hrun']; rfl, fun _ => .atToken v ht⟩
      | error e' c₁' =>
        refine ⟨e', c₁', by rw [EStateM.run_bind, hrun'], fun hσ => ?_⟩
        rcases h.ok hrun with hseam | ⟨a', c₂', hok, -⟩
        · exact absurd hσ hseam.ne_never
        · cases hok.symm.trans hrun'
    · rename_i e c₁ hrun
      cases hr
      rcases h.error hrun with hend | ⟨e', c₁', hrun', he⟩
      · exact .inl hend
      · exact .inr ⟨e', c₁', by rw [EStateM.run_bind, hrun'], he⟩

/-- Taking the token under the cursor and going on. -/
theorem advance_bind {f : Token → Reading β} {f' : Token → Reading β'} (hc : c.Alongside k σ c')
    (hsettles : ∀ t, (f t).Settles)
    (h : c.advance.Alongside k σ c'.advance →
      Loose k σ Q (f c.current) (f' c'.current) c.advance c'.advance) :
    Loose k σ Q (advance >>= f) (advance >>= f') c c' := by
  have h' : Loose k σ Q (f c.current) (f' c'.current) c.advance c'.advance := by
    rcases hc.advance with hnext | hmeets
    · exact h hnext
    · exact Loose.of_settles hmeets (hsettles _)
  exact ⟨h'.ok, h'.error⟩

/-! ### Repetition -/

variable {R : α → α → Prop}

/-- A reading that begins by `advance` leaves fewer tokens. -/
theorem length_ahead_lt_of_advance {f : Token → Reading β} (horderly : ∀ t, (f t).Orderly)
    {c₁ : Cursor} {b : β} (hc : c.Closed) (hend : c.current.isEnd = false)
    (hr : (advance >>= f).run c = .ok b c₁) : c₁.ahead.length < c.ahead.length := by
  obtain ⟨t, rest, hahead, hadvance⟩ := Cursor.advance_of_closed hc hend
  rw [run_bind_of_ok run_advance, hadvance] at hr
  rw [hahead]
  exact Nat.lt_succ_of_le ((horderly _).moves hr).length_ahead_le

/-- A `step` that accepts takes a token, so that neither `repeatFrom` comes to the end of its
    rounds. -/
theorem repeatFrom {step : α → Reading (Option α)} (hsettles : ∀ a, (step a).Settles)
    (hless : ∀ {a b : α} {c c₁ : Cursor}, c.Closed → (step a).run c = .ok (some b) c₁ →
      c₁.ahead.length < c.ahead.length)
    (hstep : ∀ {a a' : α} {c c' : Cursor}, R a a' → c.Alongside k σ c' →
      Loose k σ (Option.Rel R) (step a) (step a') c c')
    {a a' : α} (ha : R a a') (hc : c.Alongside k σ c') :
    Loose k σ R (repeatFrom step a) (Reading.repeatFrom step a') c c' := by
  have within : ∀ (rounds rounds' : List Token) {a a' : α} {c c' : Cursor}, R a a' →
      c.Alongside k σ c' → c.ahead.length < rounds.length → c'.ahead.length < rounds'.length →
      Loose k σ R (repeatWithin step rounds a) (repeatWithin step rounds' a') c c' := by
    intro rounds
    induction rounds with
    | nil => intro _ _ _ _ _ _ _ h; simp at h
    | cons round rounds ih =>
      intro rounds' a a' c c' ha hc hrounds hrounds'
      cases rounds' with
      | nil => simp at hrounds'
      | cons round' rounds' =>
        simp only [List.length_cons] at hrounds hrounds'
        refine (hstep ha hc).bind_of_run (fun o => ?_) fun hrun ho hc₁ => ?_
        · cases o with
          | none => exact .pure a
          | some b => exact .repeatWithin hsettles rounds b
        cases ho with
        | none => exact .pure hc₁ ha
        | some hb =>
          have hfewer := hless hc.closed hrun
          have hlength := hc.length_ahead
          have hlength₁ := hc₁.length_ahead
          exact ih rounds' hb hc₁ (by omega) (by omega)
  have h := within (c.current :: c.ahead) (c'.current :: c'.ahead) ha hc (by simp) (by simp)
  exact ⟨h.ok, h.error⟩

/-- A step of `whileSees` that takes the token it looks for, and goes on in some way. -/
theorem whileSees {kind : TokenKind} {lexeme : String} (hkind : kind ≠ .endOfInput)
    {f : α → Token → Reading α} (horderly : ∀ a t, (f a t).Orderly)
    (hsettles : ∀ a t, (f a t).Settles)
    (hstep : ∀ {a a' : α} {c c' : Cursor}, R a a' → c.Alongside k σ c' →
      c.current.is kind lexeme = true → c.advance.Alongside k σ c'.advance →
      Loose k σ R (f a c.current) (f a' c'.current) c.advance c'.advance)
    {a a' : α} (ha : R a a') (hc : c.Alongside k σ c') :
    Loose k σ R (whileSees kind lexeme (fun a => advance >>= f a) a)
      (Reading.whileSees kind lexeme (fun a => advance >>= f a) a') c c' := by
  refine .repeatFrom (fun _ => .check_bind hkind (.pure _)) ?_ ?_ ha hc
  · intro a b c c₁ hclosed hrun
    rw [run_bind_of_ok (run_check kind (some lexeme))] at hrun
    split at hrun
    · rename_i hsees
      obtain ⟨b', c₂, hmoved, hsome⟩ := run_bind_eq_ok.1 hrun
      obtain ⟨-, rfl⟩ := run_pure_eq_ok.1 hsome
      have hend : c.current.isEnd = false := by
        simp only [Token.matches?, Bool.and_eq_true, decide_eq_true_eq] at hsees
        simpa [Token.isEnd, hsees.1] using hkind
      exact length_ahead_lt_of_advance (horderly a) hclosed hend hmoved
    · cases hrun
  · intro a a' c c' ha hc
    refine .check_bind hc fun b hb => ?_
    subst hb
    refine .ite .rfl (fun hsees => ?_) fun _ => .pure hc .none
    exact .map (Loose.advance_bind hc (hsettles a) fun hnext => hstep ha hc hsees hnext) .some

end Loose

end Reading

end Scripting
