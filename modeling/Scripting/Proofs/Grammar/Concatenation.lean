import Scripting.Proofs.Grammar.StatementAlike

set_option autoImplicit false

/-! # Programs one behind the other

Where the tokens of two programs stand one behind the other, with no end of input between them,
`Program.ofTokens` reads the statements of both one behind the other. Neither statement at the seam
takes anything from beyond it: the one before has closed, and no statement begins with an `else`. -/

namespace Scripting

open Reading Grammar

variable {k : Correspondence} {σ : Seam} {g : Nested} {c c' : Cursor}

/-- Whether `c` and `c'` stand `Alongside` each other or meet at the seam `σ`. -/
def Cursor.Abreast (k : Correspondence) (σ : Seam) (c c' : Cursor) : Prop :=
  c.Alongside k σ c' ∨ c.Meets σ c'

/-- One more statement is read on both sides, as `oneMoreInProgram` begins before the seam. -/
theorem Grammar.accept_alike (ho : g.Orderly) (hs : g.Sound) (hg : g.Alike k σ)
    (helse : ¬ σ.OpensElse) {c₁ : Cursor} {done next : List Stmt}
    (habreast : c.Abreast k σ c') (hclosed : c.Closed) (hclosed' : c'.Closed)
    (h : (oneMoreInProgram g done).run c = .ok (some next) c₁) :
    ∃ s s' c₁' first words, next = s :: done ∧ s.Corresponds k s' ∧ c₁.Abreast k σ c₁' ∧
      c₁'.Closed ∧ c.Spells (first :: words) c₁ ∧
      ∀ done', Accepts (oneMoreInProgram g) (done', c') (s' :: done', c₁') := by
  obtain ⟨s, hstatement, rfl⟩ := oneMoreInProgram_eq_some h
  obtain ⟨-, hwf, hspells⟩ := statement_sound hs hclosed hstatement
  obtain ⟨first, words, hfirst, -⟩ := Stmt.exists_spelled_eq_cons hwf
  rw [hfirst] at hspells
  have hend : c.current.isEnd = false := Token.isEnd_eq_false hspells.of_cons.1
  have hbeside : c.Alongside k σ c' :=
    habreast.resolve_right fun hmeets => by simp [hmeets.before.isEnd] at hend
  obtain ⟨s', c₁', hstatement', hs', habreast₁⟩ :=
    ((statement_firm ho hs hg hbeside).ok hstatement).resolve_left fun hlost => helse hlost.2
  obtain ⟨-, -, hspells'⟩ := statement_sound hs hclosed' hstatement'
  have hend' : c'.current.isEnd = false := hbeside.current.isEnd_eq.trans hend
  refine ⟨s, s', c₁', first, words, rfl, hs', habreast₁, hspells'.closed hclosed', hspells,
    fun done' => ⟨?_, length_ahead_lt_of_gives (statement_sound hs) hclosed' hstatement'⟩⟩
  simp only [oneMoreInProgram, run_bind_of_ok run_current, hend', Bool.false_eq_true, if_false]
  rw [run_bind_of_ok hstatement']
  rfl

/-- Statements that are read up to the end are read on the other side up to the seam, behind
    whatever has been read before them: the `base`. -/
theorem Grammar.accepts_alike (base : List Stmt) (ho : g.Orderly) (hs : g.Sound)
    (hg : g.Alike k σ) (helse : ¬ σ.OpensElse) {c₂ : Cursor} {done : List Stmt}
    (habreast : c.Abreast k σ c') (hclosed : c.Closed) (hclosed' : c'.Closed)
    (h : (repeatFrom (oneMoreInProgram g) []).run c = .ok done c₂) :
    ∃ done' c₁ c₁' words, List.Forall₂ (Stmt.Corresponds k) done done' ∧
      Relation.ReflTransGen (Accepts (oneMoreInProgram g)) (base, c') (done' ++ base, c₁') ∧
      c₁.Abreast k σ c₁' ∧ c₁'.Closed ∧ c.Spells words c₁ ∧ c₁.current.isEnd = true := by
  obtain ⟨c₁, -, ⟨done', c₁', words, hdone, hsteps, habreast₁, hclosed₁, hspells⟩, hdecline⟩ :=
    repeatFrom_invariant
    (I := fun done c₁ => ∃ done' c₁' words, List.Forall₂ (Stmt.Corresponds k) done done' ∧
      Relation.ReflTransGen (Accepts (oneMoreInProgram g)) (base, c') (done' ++ base, c₁') ∧
      c₁.Abreast k σ c₁' ∧ c₁'.Closed ∧ c.Spells words c₁)
    (by
      rintro done next c₁ c₂ hclosed₁
        ⟨done', c₁', words, hdone, hsteps, habreast₁, hclosed₁', hspells⟩ hread
      obtain ⟨s, s', c₂', first, more, rfl, hs', habreast₂, hclosed₂', hspells₂, haccepts⟩ :=
        accept_alike ho hs hg helse habreast₁ hclosed₁ hclosed₁' hread
      exact ⟨⟨s' :: done', c₂', _, .cons hs' hdone, hsteps.tail (haccepts _), habreast₂,
        hclosed₂', hspells.append hspells₂⟩, first, more, hspells₂⟩)
    hclosed ⟨[], c', [], .nil, .refl, habreast, hclosed', .nil _⟩ h
  exact ⟨done', c₁, c₁', words, hdone, hsteps, habreast₁, hclosed₁, hspells,
    (oneMoreInProgram_eq_none hdecline).2⟩

/-- No program begins with an `else`. -/
theorem Program.is_else_of_ofTokens {depth : Nat} {t : Token} {rest : List Token} {p : Program}
    (h : ofTokens depth (t :: rest) = .ok p) : t.is .keyword "else" = false := by
  obtain ⟨c, c', hclosed, hsetting, htokens, hrun⟩ := exists_run_of_ofTokens h
  obtain ⟨hwf, c₁, hspells, hend⟩ := program_sound (nested_sound depth) hclosed hsetting hrun
  cases (List.cons.inj htokens).1
  rw [Token.is_keyword rfl, decide_eq_false_iff_not]
  intro helse
  cases p with
  | nil =>
    obtain rfl := hspells.eq_of_nil
    simp [Token.isEnd_eq_false helse] at hend
  | cons s p =>
    obtain ⟨first, words, hfirst, hopens⟩ := Stmt.exists_spelled_eq_cons (hwf s (.head _))
    rw [Program.spelled, Stmt.spelledAll, hfirst] at hspells
    obtain rfl := Option.some.inj (helse.symm.trans hspells.of_cons.1)
    simp [Word.OpensStatement] at hopens

/-- The statements of a `program` have been read at an end of input. -/
theorem Grammar.exists_statements_of_program {p : Program} (h : (program g).run c = .ok p c') :
    ∃ done c₁, (repeatFrom (oneMoreInProgram g) []).run c = .ok done c₁ ∧ p = done.reverse := by
  obtain ⟨done, c₁, hloop, h⟩ := run_bind_eq_ok.1 h
  obtain ⟨_, _, -, h⟩ := run_bind_eq_ok.1 h
  exact ⟨done, c₁, hloop, (run_pure_eq_ok.1 h).1.symm⟩

theorem Grammar.run_program_of_accepts {done : List Stmt}
    (hsteps : Relation.ReflTransGen (Accepts (oneMoreInProgram g)) ([], c) (done, c'))
    (hend : c'.current.isEnd = true) : (program g).run c = .ok done.reverse c' := by
  have hstop : (oneMoreInProgram g done).run c' = .ok none c' := by
    simp only [oneMoreInProgram, run_bind_of_ok run_current, hend, if_true]
    rfl
  have htake : (take .endOfInput none).run c' = .ok c'.current c' := by
    refine run_take_eq_ok.2 ⟨?_, rfl, by simp [Cursor.advance, hend]⟩
    simpa [Token.matches?, Token.isEnd] using hend
  rw [program, run_bind_of_ok (run_repeatFrom_of_accepts hsteps hstop), run_bind_of_ok htake]
  rfl

/-- Before the seam no end of input is met: `as` have none. -/
theorem Cursor.Abreast.meets {as rest : List Token} {last first : Token} {hlast}
    {taken : List Token} (h : c.Abreast k (.parts last first rest hlast) c')
    (hopen : ∀ t ∈ as, t.isEnd = false) (htokens : as ++ [last] = taken ++ c.current :: c.ahead)
    (hend : c.current.isEnd = true) : c.Meets (.parts last first rest hlast) c' := by
  refine h.resolve_left fun hbeside => ?_
  obtain ⟨ts, ts', hts, hne, hc, -⟩ := hbeside.tokens
  obtain ⟨t, ts, rfl⟩ := List.exists_cons_of_ne_nil hne
  rw [hc, Seam.before, ← List.append_assoc] at htokens
  have hmem : c.current ∈ as := by
    rw [List.append_cancel_right htokens, (List.cons.inj hc).1]
    simp
  simp [hopen _ hmem] at hend

/-- Cursors on the first of the tokens before a seam stand `Abreast`. -/
theorem Cursor.abreast_of_ofTokens? {as as' rest : List Token} {last first : Token} {hlast}
    (has : List.Forall₂ k.Tokens as as') (hc : Cursor.ofTokens? (as ++ [last]) = some c)
    (hc' : Cursor.ofTokens? (as' ++ first :: rest) = some c') :
    c.Abreast k (.parts last first rest hlast) c' := by
  obtain ⟨-, htokens, hloops, hfunctions, hclosed⟩ := Cursor.ofTokens?_eq_some_iff.1 hc
  obtain ⟨-, htokens', hloops', hfunctions', -⟩ := Cursor.ofTokens?_eq_some_iff.1 hc'
  cases has with
  | nil =>
    exact .inr ⟨htokens, htokens', hloops'.trans hloops.symm, hfunctions'.trans hfunctions.symm⟩
  | cons ht hrest =>
    exact .inl ⟨⟨_, _, .cons ht hrest, by simp, htokens, htokens'⟩, hclosed,
      hloops'.trans hloops.symm, hfunctions'.trans hfunctions.symm⟩

namespace Program

variable {depth : Nat} {as as' bs bs' rest : List Token} {last first : Token} {p q : Program}

/-- The statements of a program `p` are read up to where the tokens `first :: rest` follow them in
    the place of the end of input `last`. -/
theorem exists_accepts_to_seam (has : List.Forall₂ k.Tokens as as')
    (hopen : ∀ t ∈ as, t.isEnd = false) (hp : ofTokens depth (as ++ [last]) = .ok p)
    (hfirst : first.is .keyword "else" = false)
    (hc : Cursor.ofTokens? (as' ++ first :: rest) = some c) :
    ∃ done' c₁, p.Corresponds k done'.reverse ∧
      Relation.ReflTransGen (Accepts (oneMoreInProgram (nested depth))) ([], c) (done', c₁) ∧
      c₁.current :: c₁.ahead = first :: rest ∧ c₁.Closed ∧ c₁.loops = 0 ∧ c₁.functions = 0 := by
  obtain ⟨a, a₁, ha, hrun⟩ := exists_cursor_of_ofTokens hp
  obtain ⟨-, htokens, hloops, hfunctions, hclosed⟩ := Cursor.ofTokens?_eq_some_iff.1 ha
  obtain ⟨-, -, -, -, hclosed'⟩ := Cursor.ofTokens?_eq_some_iff.1 hc
  obtain ⟨done, a₂, hdone, rfl⟩ := exists_statements_of_program hrun
  have hlast : last.isEnd = true := by
    rw [Cursor.Closed, ← List.getLast_eq_getLastD (List.cons_ne_nil _ _)] at hclosed
    simpa [htokens] using hclosed
  have helse : ¬ (Seam.parts last first rest hlast).OpensElse := Bool.eq_false_iff.1 hfirst
  have hstart : a.Abreast k (.parts last first rest hlast) c :=
    Cursor.abreast_of_ofTokens? has ha hc
  obtain ⟨done', a₃, c₁, words, hdone', hsteps, habreast, hclosed₁, hspells, hend⟩ :=
    accepts_alike [] (nested_orderly depth) (nested_sound depth) (nested_alike _ _ depth) helse
      hstart hclosed hclosed' hdone
  obtain ⟨taken, htaken, -⟩ := hspells.exists_tokens hclosed
  have hmeets := habreast.meets hopen (htokens.symm.trans htaken) hend
  exact ⟨done', c₁, List.forall₂_reverse_iff.2 hdone', by simpa using hsteps, hmeets.behind,
    hclosed₁, by rw [hmeets.loops, hspells.loops_eq, hloops],
    by rw [hmeets.functions, hspells.functions_eq, hfunctions]⟩

/-- The statements of a program `q` are read behind the `base` as they are by themselves. -/
theorem exists_accepts_to_end (base : List Stmt)
    (hbs : List.Forall₂ k.Tokens bs (c.current :: c.ahead)) (hq : ofTokens depth bs = .ok q)
    (hclosed : c.Closed) (hloops : c.loops = 0) (hfunctions : c.functions = 0) :
    ∃ more' c₁, q.Corresponds k more'.reverse ∧
      Relation.ReflTransGen (Accepts (oneMoreInProgram (nested depth))) (base, c)
        (more' ++ base, c₁) ∧ c₁.current.isEnd = true := by
  obtain ⟨b, b₁, hb, hrun⟩ := exists_cursor_of_ofTokens hq
  obtain ⟨-, rfl, hloopsb, hfunctionsb, hclosedb⟩ := Cursor.ofTokens?_eq_some_iff.1 hb
  obtain ⟨more, b₂, hmore, rfl⟩ := exists_statements_of_program hrun
  have hbeside : b.Alongside k .never c :=
    ⟨⟨_, _, hbs, by simp, by simp [Seam.before], by simp [Seam.behind]⟩, hclosedb,
      hloops.trans hloopsb.symm, hfunctions.trans hfunctionsb.symm⟩
  obtain ⟨more', b₃, c₁, _, hmore', hsteps, habreast, -, -, hend⟩ :=
    accepts_alike base (nested_orderly depth) (nested_sound depth) (nested_alike _ _ depth) id
      (.inl hbeside) hclosedb hclosed hmore
  refine ⟨more', c₁, List.forall₂_reverse_iff.2 hmore', hsteps, ?_⟩
  rcases habreast with hbeside' | hmeets
  · exact hbeside'.current.isEnd_eq.trans hend
  · exact absurd rfl hmeets.before.ne_never

/-- The programs `p` and `q` of two sequences of tokens, the first closed by an end of input, are
    what tokens corresponding to them spell one behind the other. -/
theorem ofTokens_append {ka kb : Correspondence} (has : List.Forall₂ ka.Tokens as as')
    (hbs : List.Forall₂ kb.Tokens bs bs') (hopen : ∀ t ∈ as, t.isEnd = false)
    (hp : ofTokens depth (as ++ [last]) = .ok p) (hq : ofTokens depth bs = .ok q) :
    ∃ p' q', ofTokens depth (as' ++ bs') = .ok (p' ++ q') ∧ p.Corresponds ka p' ∧
      q.Corresponds kb q' := by
  obtain ⟨b, -, hb, -⟩ := exists_cursor_of_ofTokens hq
  obtain ⟨b', hb', hbeside⟩ := Cursor.alongside_of_ofTokens? hbs hb
  obtain ⟨c, hc⟩ := Cursor.exists_ofTokens?_append hb' as'
  obtain ⟨-, rfl, -⟩ := Cursor.ofTokens?_eq_some_iff.1 hb
  obtain ⟨-, rfl, -⟩ := Cursor.ofTokens?_eq_some_iff.1 hb'
  have hfirst : b'.current.is .keyword "else" = false :=
    (hbeside.current.is_eq _ _).trans (is_else_of_ofTokens hq)
  obtain ⟨done', c₁, hdone', hsteps, hahead, hclosed, hloops, hfunctions⟩ :=
    exists_accepts_to_seam has hopen hp hfirst hc
  obtain ⟨more', c₂, hmore', hsteps', hend⟩ :=
    exists_accepts_to_end done' (hahead ▸ hbs) hq hclosed hloops hfunctions
  have hrun := run_program_of_accepts (hsteps.trans hsteps') hend
  rw [List.reverse_append] at hrun
  exact ⟨done'.reverse, more'.reverse, by rw [ofTokens_of_cursor hc, hrun], hdone', hmore'⟩

/-- Tokens that `ofTokens` refuses for what stands before their end are refused with whatever stands
    in the place of the end. -/
theorem exists_error_of_append {e : Refusal} (hlast : last.isEnd = true)
    (hrest : Cursor.ofTokens? rest = some c) (he : ofTokens depth (as ++ [last]) = .error e) :
    e.BlamesEnd ∨ ∃ e', ofTokens depth (as ++ rest) = .error e' := by
  have has : List.Forall₂ (Correspondence.placing id).Tokens as as :=
    List.forall₂_same.2 fun _ _ => .self (fun _ _ => rfl) rfl rfl trivial
  have hend : Cursor.ofTokens? [last] = some ⟨[], last, [], 0, 0⟩ := by
    simp [Cursor.ofTokens?, hlast]
  obtain ⟨a, ha⟩ := Cursor.exists_ofTokens?_append hend as
  obtain ⟨a', ha'⟩ := Cursor.exists_ofTokens?_append hrest as
  obtain ⟨-, rfl, -⟩ := Cursor.ofTokens?_eq_some_iff.1 hrest
  rw [ofTokens_of_cursor ha] at he
  rw [ofTokens_of_cursor ha']
  split at he
  · cases he
  rename_i hrun
  cases he
  have halike : Loose (.placing id) (.parts last c.current c.ahead hlast)
      (Corresponds (.placing id)) (program (nested depth)) (program (nested depth)) a a' := by
    rcases Cursor.abreast_of_ofTokens? has ha ha' with hbeside | hmeets
    · exact program_alike (nested_orderly depth) (nested_sound depth) (nested_alike _ _ depth)
        hbeside
    · exact .of_settles hmeets program_settles
  rcases halike.error hrun with ⟨-, hblames⟩ | ⟨e', c₁', hrun', -⟩
  · exact .inl hblames
  · exact .inr ⟨e', by rw [hrun']⟩

end Program

end Scripting
