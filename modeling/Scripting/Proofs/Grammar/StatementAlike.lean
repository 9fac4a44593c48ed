import Scripting.Proofs.Grammar.ExpressionAlike
import Scripting.Proofs.Grammar.StatementSoundness

set_option autoImplicit false

/-! # Statements read side by side

Corresponding tokens are read as corresponding statements. A statement closes with a semicolon or a
brace, so its reading is `Reading.Tight`: it does not look behind the seam. Only a conditional does,
for an `else`, and is `Reading.Firm`. A text that is refused for what stands before its end is
refused with whatever is put behind it. -/

namespace Scripting.Grammar

open Reading

variable {k : Correspondence} {σ : Seam} {g : Nested} {c c' : Cursor}

/-! ## Simple statements -/

section Closing

variable {α α' : Type} {P : α → α' → Prop}

/-- A mark `s` that closes what has been read. -/
theorem closing_tight (s : String) {a : α} {a' : α'} (hc : c.Alongside k σ c') (ha : P a a') :
    Tight k σ P (do let _ ← eatMark s; return a) (do let _ ← eatMark s; return a') c c' :=
  .map (.take hc) fun _ => ha

end Closing

theorem expressionStatement_tight (ho : g.Orderly) (hg : g.Alike k σ) (hc : c.Alongside k σ c') :
    Tight k σ (Stmt.Corresponds k) (expressionStatement g) (expressionStatement g) c c' := by
  refine .current_bind ?_
  refine Loose.bind_refuses (expression_alike ho hg hc) (fun _ => eatMark_refuses _ _)
    fun he hc₁ => ?_
  exact closing_tight _ hc₁ ⟨he, hc.current.place⟩

theorem printStatement_tight (ho : g.Orderly) (hg : g.Alike k σ) (hc : c.Alongside k σ c') :
    Tight k σ (Stmt.Corresponds k) (printStatement g) (printStatement g) c c' := by
  refine Loose.bind_refuses (.take hc) (fun _ => .bind expression_refuses _) fun ht hc₁ => ?_
  refine Loose.bind_refuses (expression_alike ho hg hc₁) (fun _ => eatMark_refuses _ _)
    fun he hc₂ => ?_
  exact closing_tight _ hc₂ ⟨he, ht.place⟩

theorem declaration_tight (ho : g.Orderly) (hg : g.Alike k σ) (hc : c.Alongside k σ c') :
    Tight k σ (Stmt.Corresponds k) (declaration g) (declaration g) c c' := by
  -- at an end of input the name is missing, or the value or the semicolon behind it
  refine Loose.bind_refuses (.take hc) (fun _ => .check_bind (by simp) (.bind (.expected _) _))
    fun ht hc₁ => ?_
  refine .check_bind hc₁ fun _ _ => .ite .rfl (fun _ => .expected_bind _ hc₁) fun _ => ?_
  refine Loose.bind_refuses (.advance hc₁)
    (fun _ => .check_bind (by simp) (eatMark_refuses _ _)) fun hname hc₂ => ?_
  refine .check_bind hc₂ fun _ _ => .ite .rfl (fun _ => ?_) fun _ => ?_
  · refine Loose.bind_refuses (.advance hc₂) (fun _ => .bind expression_refuses _) fun _ hc₃ => ?_
    refine Loose.bind_refuses (expression_alike ho hg hc₃) (fun _ => eatMark_refuses _ _)
      fun he hc₄ => ?_
    exact closing_tight _ hc₄ ⟨hname.lexeme.symm, .some he, ht.place⟩
  · exact closing_tight _ hc₂ ⟨hname.lexeme.symm, .none, ht.place⟩

theorem jump_tight (which : Jump) (hc : c.Alongside k σ c') :
    Tight k σ (Stmt.Corresponds k) (jump which) (jump which) c c' := by
  refine .current_bind (.get_bind (.ite (by rw [hc.loops])
    (fun _ => .refuseAt_bind _ hc.current) fun _ => ?_))
  refine Loose.bind_refuses (.advance hc) (fun _ => eatMark_refuses _ _) fun _ hc₁ => ?_
  exact closing_tight _ hc₁ ⟨rfl, hc.current.place⟩

theorem result_tight (ho : g.Orderly) (hg : g.Alike k σ) (hc : c.Alongside k σ c') :
    Tight k σ (Stmt.Corresponds k) (result g) (result g) c c' := by
  refine .current_bind (.get_bind (.ite (by rw [hc.functions])
    (fun _ => .refuseAt_bind _ hc.current) fun _ => ?_))
  refine Loose.bind_refuses (.advance hc)
    (fun _ => .check_bind (by simp) (.bind expression_refuses _)) fun _ hc₁ => ?_
  refine .check_bind hc₁ fun _ _ => .ite .rfl (fun _ => ?_) fun _ => ?_
  · exact closing_tight _ hc₁ ⟨.none, hc.current.place⟩
  · refine Loose.bind_refuses (expression_alike ho hg hc₁) (fun _ => eatMark_refuses _ _)
      fun he hc₂ => ?_
    exact closing_tight _ hc₂ ⟨.some he, hc.current.place⟩

/-! ## Bodies -/

/-- A statement that a reading `Gives` takes a token. -/
theorem length_ahead_lt_of_gives {r : Reading Stmt} {shape : Stmt → Prop} (hr : r.Gives shape)
    {s : Stmt} (hc : c.Closed) (h : r.run c = .ok s c') : c'.ahead.length < c.ahead.length := by
  obtain ⟨-, hwf, hspells⟩ := hr hc h
  obtain ⟨first, words, hfirst, -⟩ := Stmt.exists_spelled_eq_cons hwf
  exact (hfirst ▸ hspells).length_ahead_lt hc

theorem block_tight (hs : g.Sound) (hg : g.Alike k σ)
    (hc : c.Alongside k σ c') :
    Tight k σ (Stmt.Corresponds k) (block g) (block g) c c' := by
  have hmore (done : List Stmt) : (oneMoreInBlock g done).Settles :=
    (oneMoreInBlock_refuses done).settles
  refine Loose.bind_refuses (.take hc)
    (fun _ => .bind_of_settles (.repeatFrom hmore []) fun _ => eatMark_refuses _ _) fun ht hc₁ => ?_
  refine Loose.bind_refuses (P := List.Forall₂ (Stmt.Corresponds k))
    (Loose.repeatFrom hmore ?_ ?_ .nil hc₁) (fun _ => eatMark_refuses _ _) fun hdone hc₂ => ?_
  · intro done done' c c₁ hclosed hread
    obtain ⟨s, hs', -⟩ := oneMoreInBlock_eq_some hread
    exact length_ahead_lt_of_gives hs.statement hclosed hs'
  · intro done done' c c' hdone hc
    refine .check_bind hc fun _ _ => .ite .rfl (fun _ => .pure hc .none) fun _ => ?_
    refine .current_bind (.ite (by rw [hc.current.isEnd_eq]) (fun _ => .expected _ hc) fun _ => ?_)
    exact .map (hg.statement hc) fun hs => .some (.cons hs hdone)
  · exact closing_tight _ hc₂
      ⟨Stmt.allCorrespond_iff.2 (List.forall₂_reverse_iff.2 hdone), ht.place⟩

theorem alternative_firm (hs : g.Sound) (hg : g.Alike k σ)
    (hc : c.Alongside k σ c') :
    Firm k σ (Stmt.Corresponds k) (alternative g) (alternative g) c c' :=
  .check_bind hc fun _ _ => .ite .rfl (fun _ => hg.conditional hc) fun _ =>
    (block_tight hs hg hc).alike

theorem conditional_firm (ho : g.Orderly) (hs : g.Sound) (hg : g.Alike k σ)
    (hc : c.Alongside k σ c') :
    Firm k σ (Stmt.Corresponds k) (conditional g) (conditional g) c c' := by
  refine Loose.bind_refuses (.take hc) (fun _ => .bind expression_refuses _) fun ht hc₁ => ?_
  refine Loose.bind_refuses (expression_alike ho hg hc₁) (fun _ => .bind block_refuses _)
    fun he hc₂ => ?_
  refine (block_tight hs hg hc₂).bind_at_seam fun hthen hc₃ => ?_
  rcases hc₃ with hc₃ | hmeets
  · refine .check_bind hc₃ fun _ _ => .ite .rfl (fun _ => ?_) fun _ =>
      .pure hc₃ ⟨he, hthen, trivial, ht.place⟩
    refine Loose.bind_refuses (.advance hc₃)
      (fun _ => .bind (alternative_refuses hg.refuses.conditional) _) fun _ hc₄ => ?_
    exact .map (alternative_firm hs hg hc₄) fun helse => ⟨he, hthen, helse, ht.place⟩
  · -- the conditional ends before the seam, but behind the seam it may go on
    obtain ⟨hbefore, hbehind⟩ := hmeets.matches?_else
    by_cases helse : σ.OpensElse
    · exact .of_run ((run_bind_of_ok (run_check _ _)).trans (by rw [hbefore]; rfl))
        ⟨hmeets.before, helse⟩
    · refine .check_bind_of_eq ((hbehind helse).trans hbefore.symm) fun b hb => ?_
      rw [hbefore] at hb
      subst hb
      exact .pure_of_meets hmeets ⟨he, hthen, trivial, ht.place⟩

theorem loop_tight (ho : g.Orderly) (hs : g.Sound) (hg : g.Alike k σ)
    (hc : c.Alongside k σ c') :
    Tight k σ (Stmt.Corresponds k) (loop g) (loop g) c c' := by
  refine Loose.bind_refuses (.take hc) (fun _ => .bind expression_refuses _) fun ht hc₁ => ?_
  refine Loose.bind_refuses (expression_alike ho hg hc₁)
    (fun _ => .bind (insideLoop_refuses block_refuses) _) fun he hc₂ => ?_
  exact .map (Tight.insideLoop (block_tight hs hg) hc₂) fun hbody => ⟨he, hbody, ht.place⟩

/-! ## Functions -/

theorem parameters_alike (name : String) (hc : c.Alongside k σ c') :
    Loose k σ (List.Forall₂ Eq) (parameters name) (parameters name) c c' := by
  refine elements_alike (parameter_orderly name) (parameter_refuses name) (fun hdone hc => ?_) hc
  obtain rfl := List.forall₂_eq_eq_eq ▸ hdone
  -- a name that is there twice is refused at the seam as well
  refine Tight.bind_at_seam (.take hc) fun ht hc₁ => ?_
  refine .ite (by rw [ht.lexeme]) (fun _ => ht.lexeme ▸ .refuseAt_bind _ ht) fun _ => ?_
  rcases hc₁ with hc₁ | hmeets
  · exact .pure hc₁ ht.lexeme.symm
  · exact .pure_of_meets hmeets ht.lexeme.symm

theorem function_tight (hs : g.Sound) (hg : g.Alike k σ)
    (hc : c.Alongside k σ c') :
    Tight k σ (Stmt.Corresponds k) (function g) (function g) c c' := by
  refine Loose.bind_refuses (.take hc) (fun _ => .check_bind (by simp) (.bind (.expected _) _))
    fun ht hc₁ => ?_
  refine .check_bind hc₁ fun _ _ => .ite .rfl (fun _ => .expected_bind _ hc₁) fun _ => ?_
  refine Loose.bind_refuses (.advance hc₁) (fun _ => eatMark_refuses _ _)
    fun {name name' _ _} hname hc₂ => ?_
  refine Loose.bind_refuses (.take hc₂)
    (fun _ => .bind (elements_refuses (parameter_refuses _ _)) _) fun _ hc₃ => ?_
  rw [hname.lexeme]
  refine Loose.bind_refuses (parameters_alike name.lexeme hc₃) (fun _ => eatMark_refuses _ _)
    fun hnames hc₄ => ?_
  refine Loose.bind_refuses (.take hc₄)
    (fun _ => .bind (insideFunction_refuses block_refuses) _) fun _ hc₅ => ?_
  refine .map (Tight.insideFunction (block_tight hs hg) hc₅) fun hbody => ?_
  exact ⟨rfl, List.forall₂_eq_eq_eq ▸ hnames, hbody, ht.place⟩

theorem statement_firm (ho : g.Orderly) (hs : g.Sound) (hg : g.Alike k σ)
    (hc : c.Alongside k σ c') :
    Firm k σ (Stmt.Corresponds k) (statement g) (statement g) c c' := by
  have hkeyword (keyword : String) : Firm k σ (Stmt.Corresponds k) (keywordStatement g keyword)
      (keywordStatement g keyword) c c' := by
    unfold keywordStatement
    split
    · exact (declaration_tight ho hg hc).alike
    · exact (function_tight hs hg hc).alike
    · exact (printStatement_tight ho hg hc).alike
    · exact conditional_firm ho hs hg hc
    · exact (loop_tight ho hs hg hc).alike
    · exact (result_tight ho hg hc).alike
    · exact (jump_tight .leave hc).alike
    · exact (jump_tight .again hc).alike
    · exact (expressionStatement_tight ho hg hc).alike
  have ht := hc.current
  refine .current_bind (.ite (by rw [ht.kind]) (fun _ => ?_) fun _ => .ite (by rw [ht.is_eq])
    (fun _ => (block_tight hs hg hc).alike) fun _ => (expressionStatement_tight ho hg hc).alike)
  rw [ht.lexeme]
  exact hkeyword _

/-! ## Programs -/

theorem nested_alike (k : Correspondence) (σ : Seam) (depth : Nat) : (nested depth).Alike k σ := by
  induction depth with
  | zero =>
    exact ⟨nested_refuses 0, fun _ => .throw .tooDeep, fun _ => .throw .tooDeep,
      fun _ => .throw .tooDeep, fun _ => .throw .tooDeep⟩
  | succ depth ih =>
    have ho := nested_orderly depth
    have hs := nested_sound depth
    exact
      { refuses := nested_refuses (depth + 1)
        expression := fun hc => expression_alike ho ih hc
        operand := fun hc => unary_alike ho ih hc
        statement := fun hc => (statement_firm ho hs ih hc).loose
        conditional := fun hc => conditional_firm ho hs ih hc }

theorem program_alike (ho : g.Orderly) (hs : g.Sound) (hg : g.Alike k σ)
    (hc : c.Alongside k σ c') :
    Loose k σ (Program.Corresponds k) (program g) (program g) c c' := by
  refine Loose.bind (P := List.Forall₂ (Stmt.Corresponds k))
    (Loose.repeatFrom oneMoreInProgram_settles ?_ ?_ .nil hc)
    (fun _ => .bind (.take _ _) fun _ => .pure _) fun hdone hc₁ => ?_
  · intro done done' c c₁ hclosed hread
    obtain ⟨s, hs', -⟩ := oneMoreInProgram_eq_some hread
    exact length_ahead_lt_of_gives (statement_sound hs) hclosed hs'
  · intro done done' c c' hdone hc
    refine .current_bind (.ite (by rw [hc.current.isEnd_eq]) (fun _ => .pure hc .none) fun _ => ?_)
    exact .map (statement_firm ho hs hg hc).loose fun hs => .some (.cons hs hdone)
  · exact .map (.take hc₁) fun _ => List.forall₂_reverse_iff.2 hdone

end Scripting.Grammar

namespace Scripting

variable {k : Correspondence} {depth : Nat} {tokens tokens' : List Token}

theorem Correspondence.isEnd_getLastD (h : List.Forall₂ k.Tokens tokens tokens') {t t' : Token}
    (ht : k.Tokens t t') : (tokens'.getLastD t').isEnd = (tokens.getLastD t).isEnd := by
  induction h generalizing t t' with
  | nil => exact ht.isEnd_eq
  | cons hu _ ih => simpa only [List.getLastD_cons] using ih hu

theorem Cursor.ofTokens?_eq_some_iff {c : Cursor} :
    Cursor.ofTokens? tokens = some c ↔ c.behind = [] ∧ c.current :: c.ahead = tokens ∧
      c.loops = 0 ∧ c.functions = 0 ∧ c.Closed := by
  obtain ⟨behind, current, ahead, loops, functions⟩ := c
  cases tokens with
  | nil => simp [Cursor.ofTokens?]
  | cons t rest =>
    simp only [Cursor.ofTokens?, Cursor.Closed, List.getLast_eq_getLastD,
      Option.ite_none_right_eq_some, Option.some.injEq, Cursor.mk.injEq, List.cons.injEq]
    grind

theorem Cursor.exists_ofTokens?_append {c : Cursor} (h : Cursor.ofTokens? tokens = some c)
    (as : List Token) : ∃ c', Cursor.ofTokens? (as ++ tokens) = some c' := by
  obtain ⟨-, rfl, -, -, hclosed⟩ := Cursor.ofTokens?_eq_some_iff.1 h
  have hlast : ((as ++ c.current :: c.ahead).getLast (by simp)).isEnd = true := by
    rw [List.getLast_append_of_ne_nil _ (List.cons_ne_nil _ _), List.getLast_eq_getLastD]
    exact hclosed
  cases as with
  | nil => exact ⟨_, if_pos hlast⟩
  | cons t rest => exact ⟨_, if_pos hlast⟩

/-- Corresponding tokens close alike, and cursors on their first ones stand `Alongside` each
    other. -/
theorem Cursor.alongside_of_ofTokens? {c : Cursor} (h : List.Forall₂ k.Tokens tokens tokens')
    (hc : Cursor.ofTokens? tokens = some c) :
    ∃ c', Cursor.ofTokens? tokens' = some c' ∧ c.Alongside k .never c' := by
  obtain ⟨-, rfl, hloops, hfunctions, hclosed⟩ := Cursor.ofTokens?_eq_some_iff.1 hc
  cases h with
  | @cons _ t' _ rest' ht hrest =>
    have hclosed' : (rest'.getLastD t').isEnd = true :=
      (Correspondence.isEnd_getLastD hrest ht).trans hclosed
    exact ⟨⟨[], t', rest', 0, 0⟩, Cursor.ofTokens?_eq_some_iff.2 ⟨rfl, rfl, rfl, rfl, hclosed'⟩,
      ⟨_, _, .cons ht hrest, by simp, by simp [Seam.before], by simp [Seam.behind]⟩, hclosed,
      hloops.symm, hfunctions.symm⟩

namespace Program

theorem ofTokens_of_cursor {c : Cursor} (hc : Cursor.ofTokens? tokens = some c) :
    ofTokens depth tokens = match (Grammar.program (Grammar.nested depth)).run c with
      | .ok p _ => .ok p
      | .error e _ => .error e := by
  unfold ofTokens
  rw [hc]
  rfl

theorem exists_cursor_of_ofTokens {p : Program} (h : ofTokens depth tokens = .ok p) :
    ∃ c c', Cursor.ofTokens? tokens = some c ∧
      (Grammar.program (Grammar.nested depth)).run c = .ok p c' := by
  cases hc : Cursor.ofTokens? tokens with
  | none => simp [ofTokens, hc] at h
  | some c =>
    rw [ofTokens_of_cursor hc] at h
    split at h
    · rename_i p' c' hrun
      cases h
      exact ⟨c, c', rfl, hrun⟩
    · cases h

/-- Tokens that correspond by `k` are read by `ofTokens` as programs that do. -/
theorem corresponds_of_ofTokens {p : Program} (h : List.Forall₂ k.Tokens tokens tokens')
    (hp : ofTokens depth tokens = .ok p) :
    ∃ p', ofTokens depth tokens' = .ok p' ∧ p.Corresponds k p' := by
  obtain ⟨c, c₁, hc, hrun⟩ := exists_cursor_of_ofTokens hp
  obtain ⟨c', hc', hbeside⟩ := Cursor.alongside_of_ofTokens? h hc
  have halike := Grammar.program_alike (Grammar.nested_orderly depth) (Grammar.nested_sound depth)
    (Grammar.nested_alike k .never depth) hbeside
  rcases halike.ok hrun with hseam | ⟨p', c₁', hrun', hp', -⟩
  · exact absurd rfl hseam.ne_never
  · exact ⟨p', by rw [ofTokens_of_cursor hc', hrun'], hp'⟩

/-- A program corresponds to itself if the tokens do from which `ofTokens` reads it. -/
theorem corresponds_self_of_ofTokens {p : Program} (h : ∀ t ∈ tokens, k.Tokens t t)
    (hp : ofTokens depth tokens = .ok p) : p.Corresponds k p := by
  obtain ⟨p', hp', hcorresponds⟩ := corresponds_of_ofTokens (List.forall₂_same.2 h) hp
  cases hp.symm.trans hp'
  exact hcorresponds

/-- Corresponding tokens that `ofTokens` refuses are refused alike. -/
theorem refusals_of_ofTokens {c : Cursor} {e : Refusal} (h : List.Forall₂ k.Tokens tokens tokens')
    (hc : Cursor.ofTokens? tokens = some c) (he : ofTokens depth tokens = .error e) :
    ∃ e', ofTokens depth tokens' = .error e' ∧ k.Refusals e e' := by
  obtain ⟨c', hc', hbeside⟩ := Cursor.alongside_of_ofTokens? h hc
  rw [ofTokens_of_cursor hc] at he
  rw [ofTokens_of_cursor hc']
  split at he
  · cases he
  · rename_i hrun
    cases he
    rcases (Grammar.program_alike (Grammar.nested_orderly depth) (Grammar.nested_sound depth)
      (Grammar.nested_alike k .never depth) hbeside).error hrun with
      ⟨hnever, -⟩ | ⟨e', c₁', hrun', he'⟩
    · exact absurd rfl hnever
    · exact ⟨e', by rw [hrun'], he' rfl⟩

end Program

end Scripting
