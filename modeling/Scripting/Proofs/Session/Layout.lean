import Scripting.Proofs.Session.Composition

set_option autoImplicit false

/-! # Layout does not matter

Two sources that are scanned into tokens of the same kinds and texts, the same `Token.wording`,
differ in nothing but the gaps between the tokens. They are read as programs that are equal without
their positions, or refused at the same token with the same message, and programs that are equal
without their positions do the same. -/

namespace Scripting

/-! ## Programs equal without their positions -/

namespace Machine.SameButPlaces

variable {m m' m'' : Machine}

theorem symm (h : m.SameButPlaces m') : m'.SameButPlaces m :=
  h.trans_left ⟨rfl, rfl, rfl, rfl, rfl⟩

theorem trans (h : m.SameButPlaces m') (h' : m'.SameButPlaces m'') : m.SameButPlaces m'' :=
  h.symm.trans_left h'

end Machine.SameButPlaces

/-- Whether two runs are stopped for the same reason, wherever a fault points. -/
inductive Stop.SameButPlace : Stop → Stop → Prop
  | fault (cause : Cause) (p p' : Place) : SameButPlace (.fault ⟨cause, p⟩) (.fault ⟨cause, p'⟩)
  | other (e : Stop) (h : ∀ f, e ≠ .fault f) : SameButPlace e e

namespace Stop.SameButPlace

variable {e e' e'' : Stop}

theorem symm (h : e.SameButPlace e') : e'.SameButPlace e := by
  cases h with
  | fault cause p p' => exact .fault cause p' p
  | other _ hother => exact .other e hother

theorem trans (h : e.SameButPlace e') (h' : e'.SameButPlace e'') : e.SameButPlace e'' := by
  cases h with
  | fault cause p p' =>
    generalize hfault : Stop.fault _ = e' at h'
    cases h' with
    | fault cause' q q' =>
      cases hfault
      exact .fault _ _ _
    | other _ hother => exact absurd hfault.symm (hother _)
  | other _ hother => exact h'

end Stop.SameButPlace

theorem Stop.Corresponds.sameButPlace {k : Correspondence} {e e' : Stop}
    (h : e.Corresponds k e') : e.SameButPlace e' := by
  cases h with
  | fault _ _ => exact .fault _ _ _
  | other h => exact .other _ h

/-- Whether two runs end alike, with or without a stop, and leave machines that are the same but for
    the places of nodes. -/
def Run.EndAlike {α : Type} : EStateM.Result Stop Machine α → EStateM.Result Stop Machine α → Prop
  | .ok _ m, .ok _ m' => m.SameButPlaces m'
  | .error e m, .error e' m' => e.SameButPlace e' ∧ m.SameButPlaces m'
  | _, _ => False

/-- The machine `m` with its functions `unplaced`. -/
def Machine.unplaced (m : Machine) : Machine :=
  { m with functions := m.functions.map Function.unplaced }

section Unplaced

theorem Stmt.corresponds_unplaced (s : Stmt) :
    s.Corresponds (.placing fun _ => .unknown) s.unplaced := by
  have h := s.placed_corresponds_placed (k := .placing fun _ => .unknown) (f := id)
    (g := fun _ => .unknown) (fun _ => rfl) fun _ _ => rfl
  rwa [placed_id, placed_unknown] at h

theorem Program.corresponds_unplaced (p : Program) :
    p.Corresponds (.placing fun _ => .unknown) p.unplaced := by
  unfold Corresponds unplaced
  rw [List.forall₂_map_right_iff]
  exact List.forall₂_same.2 fun s _ => s.corresponds_unplaced

theorem Machine.SameButPlaces.corresponds_unplaced {m m' : Machine} (h : m.SameButPlaces m') :
    m'.Corresponds (.placing fun _ => .unknown) m.unplaced where
  scopes := h.scopes.symm
  size := by simpa [unplaced] using (congrArg Array.size h.functions).symm
  functions i := by
    have hfunction : m.unplaced.functions[i]? = m'.functions[i]?.map Function.unplaced := by
      rw [unplaced, ← h.functions, Array.getElem?_map]
    rw [hfunction]
    cases m'.functions[i]? with
    | none => exact ⟨rfl, rfl, ⟨trivial, rfl⟩, rfl⟩
    | some f => exact ⟨rfl, rfl, f.body.corresponds_unplaced, rfl⟩
  input := h.input.symm
  inputEnd := h.inputEnd.symm
  output := h.output.symm

/-- Programs that are equal when `unplaced` do the same. -/
theorem Program.run_endAlike {p q : Program} (hpq : p.unplaced = q.unplaced) (limits : Limits)
    {m m' : Machine} (hm : m.SameButPlaces m') :
    Run.EndAlike ((p.run limits Machine.globals).run m)
      ((q.run limits Machine.globals).run m') := by
  have hq := q.corresponds_unplaced
  rw [← hpq] at hq
  have hself : m.SameButPlaces m := ⟨rfl, rfl, rfl, rfl, rfl⟩
  cases hrun : (p.run limits Machine.globals).run m with
  | ok _ m₁ =>
    obtain ⟨m₂, hplain, hm₂⟩ :=
      exists_run_of_ok id p.corresponds_unplaced hself.corresponds_unplaced hrun
    cases hrun' : (q.run limits Machine.globals).run m' with
    | ok _ m₁' =>
      obtain ⟨m₂', hplain', hm₂'⟩ := exists_run_of_ok id hq hm.corresponds_unplaced hrun'
      cases hplain.symm.trans hplain'
      exact hm₂.sameButPlaces.trans hm₂'.sameButPlaces.symm
    | error e' m₁' =>
      obtain ⟨e'', m₂', hplain', -⟩ := exists_run_of_error id hq hm.corresponds_unplaced hrun'
      cases hplain.symm.trans hplain'
  | error e m₁ =>
    obtain ⟨e₂, m₂, hplain, hm₂, he₂⟩ :=
      exists_run_of_error id p.corresponds_unplaced hself.corresponds_unplaced hrun
    cases hrun' : (q.run limits Machine.globals).run m' with
    | ok _ m₁' =>
      obtain ⟨m₂', hplain', -⟩ := exists_run_of_ok id hq hm.corresponds_unplaced hrun'
      cases hplain.symm.trans hplain'
    | error e' m₁' =>
      obtain ⟨e₂', m₂', hplain', hm₂', he₂'⟩ :=
        exists_run_of_error id hq hm.corresponds_unplaced hrun'
      cases hplain.symm.trans hplain'
      exact ⟨he₂.sameButPlace.trans he₂'.sameButPlace.symm,
        hm₂.sameButPlaces.trans hm₂'.sameButPlaces.symm⟩

end Unplaced

/-! ## Tokens of the same kinds and texts -/

/-- The kind and the text of a token. -/
def Token.wording (t : Token) : TokenKind × String :=
  (t.kind, t.lexeme)

/-- What a token of a source stands for, which its `kind` and its `lexeme` tell. -/
def Token.meaning (kind : TokenKind) (lexeme : String) : Value :=
  match kind with
  | .number => .num (Number.ofLiteral lexeme.toList)
  | .string => .str (stringValue lexeme.toList)
  | .endOfInput => .nil
  | _ => .str lexeme

theorem Cut.value_of_token? {cut : Cut} {p : Position} {t : Token} (h : cut.token? p = some t) :
    t.value = Token.meaning t.kind t.lexeme := by
  obtain ⟨sort, text, rest⟩ := cut
  cases sort with
  | layout => cases h
  | lineFeed => cases h
  | comment => cases h
  | word =>
    cases h
    simp only
    split <;> rfl
  | _ => cases h; simp [Token.meaning]

theorem tokenize_values {source : String} {tokens : List Token}
    (h : tokenize source = .ok tokens) : ∀ t ∈ tokens, t.value = Token.meaning t.kind t.lexeme := by
  obtain ⟨-, rfl⟩ := tokenize_eq_ok.1 h
  exact scanFrom_forall (fun _ _ => Cut.value_of_token?) (fun _ => rfl) (Position.start_begins _)
    (by simp)

section Tokens

variable {a b : String} {as bs : List Token}

/-- Apart from their places, tokens of two sources are the same if their `wording` is. -/
theorem map_placed_eq (ha : tokenize a = .ok as) (hb : tokenize b = .ok bs)
    (h : as.map Token.wording = bs.map Token.wording) :
    as.map (Token.placed fun _ => .unknown) = bs.map (Token.placed fun _ => .unknown) := by
  let build (w : TokenKind × String) : Token := ⟨w.1, w.2, Token.meaning w.1 w.2, .unknown⟩
  have hbuild {source : String} {ts : List Token} (hts : tokenize source = .ok ts) :
      ts.map (Token.placed fun _ => .unknown) = (ts.map Token.wording).map build := by
    rw [List.map_map]
    refine List.map_congr_left fun t ht => ?_
    show (⟨t.kind, t.lexeme, t.value, .unknown⟩ : Token) = _
    rw [tokenize_values hts t ht]
    rfl
  rw [hbuild ha, hbuild hb, h]

/-- The correspondence of the tokens `as` and `bs` at the same index. -/
def Correspondence.aligned (as bs : List Token) : Correspondence where
  literal v v' := v' = v
  point _ _ _ := True
  token t u := ∃ i : Nat, as[i]? = some t ∧ bs[i]? = some u

theorem forall₂_aligned
    (h : as.map (Token.placed fun _ => .unknown) = bs.map (Token.placed fun _ => .unknown)) :
    List.Forall₂ (Correspondence.aligned as bs).Tokens as bs := by
  have hlength : as.length = bs.length := by simpa using congrArg List.length h
  refine List.forall₂_iff_get.2 ⟨hlength, fun i hi hi' => ?_⟩
  have hi' : i < bs.length := hlength ▸ hi
  have hsame : as[i].placed (fun _ => .unknown) = bs[i].placed (fun _ => .unknown) := by
    have hget := congrArg (·[i]?) h
    simpa [List.getElem?_eq_getElem hi, List.getElem?_eq_getElem hi'] using hget
  simp only [Token.placed, Token.mk.injEq] at hsame
  obtain ⟨hkind, hlexeme, hvalue, -⟩ := hsame
  simp only [List.get_eq_getElem]
  refine ⟨hkind.symm, hlexeme.symm, ?_, trivial, trivial, i, by simp [hi], by simp [hi']⟩
  have hliteral : Grammar.literalValue? bs[i] = Grammar.literalValue? as[i] := by
    simp only [Grammar.literalValue?, hkind, hlexeme, hvalue]
  rw [hliteral]
  cases Grammar.literalValue? as[i] with
  | none => exact .none
  | some v => exact .some rfl

end Tokens

/-! ## Readings -/

/-- Whether two refusals blame the tokens of `as` and `bs` at one index, with the same message. -/
inductive Refusal.Aligned (as bs : List Token) : Refusal → Refusal → Prop
  | tooDeep : Aligned as bs .tooDeep .tooDeep
  | atToken (v : Violation) (i : Nat) {t u : Token} (ht : as[i]? = some t) (hu : bs[i]? = some u)
    (hmessage : v.message (some t) = v.message (some u)) :
    Aligned as bs (.fault (.atToken v t)) (.fault (.atToken v u))

/-- A violation is told in the same words, its `message`, of tokens that are read alike. -/
theorem Correspondence.Tokens.message_eq {k : Correspondence} {t u : Token} (h : k.Tokens t u)
    (v : Violation) : v.message (some t) = v.message (some u) := by
  have hdescribe : u.describe = t.describe := by
    unfold Token.describe
    rw [h.isEnd_eq, h.kind, h.lexeme]
  cases v with
  | expected what =>
    unfold Violation.message
    dsimp only
    rw [hdescribe]
  | _ => rfl

theorem Correspondence.Refusals.aligned {as bs : List Token} {e e' : Refusal}
    (h : (Correspondence.aligned as bs).Refusals e e') : e.Aligned as bs e' := by
  cases h with
  | tooDeep => exact .tooDeep
  | atToken v h =>
    obtain ⟨i, ht, hu⟩ := h.token
    exact .atToken v i ht hu (h.message_eq v)

namespace Program

variable {depth : Nat} {a b : String} {as bs : List Token}

theorem ofTokens_map_placed {p : Program} (h : ofTokens depth as = .ok p) :
    ofTokens depth (as.map (Token.placed fun _ => .unknown)) = .ok p.unplaced := by
  rw [ofTokens_placed h]
  exact congrArg Except.ok (List.map_congr_left fun s _ => s.placed_unknown)

/-- What the source `a` is read as, `b` is too, but for the positions. -/
theorem exists_ofTokens_of_ok (ha : tokenize a = .ok as) (hb : tokenize b = .ok bs)
    (h : as.map Token.wording = bs.map Token.wording) {p : Program}
    (hp : ofTokens depth as = .ok p) :
    ∃ q, ofTokens depth bs = .ok q ∧ p.unplaced = q.unplaced := by
  have hplaced := map_placed_eq ha hb h
  obtain ⟨q, hq, -⟩ := corresponds_of_ofTokens (forall₂_aligned hplaced) hp
  have hplain := ofTokens_map_placed hp
  rw [hplaced, ofTokens_map_placed hq] at hplain
  exact ⟨q, hq, (Except.ok.inj hplain).symm⟩

theorem exists_ofTokens_of_error (ha : tokenize a = .ok as) (hb : tokenize b = .ok bs)
    (h : as.map Token.wording = bs.map Token.wording) {e : Refusal}
    (he : ofTokens depth as = .error e) :
    ∃ e', ofTokens depth bs = .error e' ∧ e.Aligned as bs e' := by
  have haligned := forall₂_aligned (map_placed_eq ha hb h)
  obtain ⟨found, q, hclosed⟩ := tokenize_closes ha
  have hend : Cursor.ofTokens? [Token.endAt q] = some ⟨[], Token.endAt q, [], 0, 0⟩ := rfl
  obtain ⟨c, hc⟩ := Cursor.exists_ofTokens?_append hend found
  obtain ⟨e', he', hrefusals⟩ := refusals_of_ofTokens haligned (hclosed ▸ hc) he
  exact ⟨e', he', hrefusals.aligned⟩

end Program

/-! ## Sources -/

/-- Whether the machine `m` takes the sources `a` and `b` for the same, which are scanned into the
    tokens `as` and `bs`: they are read as programs that are equal without their positions, and to
    run the one or the other ends alike; or tokens at the same index are blamed, with the same
    message. -/
def Machine.TakesAlike (limits : Limits) (m : Machine) (a b : String) (as bs : List Token) : Prop :=
  match Program.ofSource limits.nesting a, Program.ofSource limits.nesting b with
  | .ok (_, p), .ok (_, q) => p.unplaced = q.unplaced ∧
    Run.EndAlike ((interpret limits a).run m) ((interpret limits b).run m)
  | .error e, .error e' => e.Aligned as bs e'
  | _, _ => False

/-- Sources whose tokens have the same `wording` are taken for the same, on every machine. -/
theorem Machine.takesAlike_of_wording {a b : String} {as bs : List Token}
    (ha : tokenize a = .ok as) (hb : tokenize b = .ok bs)
    (h : as.map Token.wording = bs.map Token.wording) (limits : Limits) (m : Machine) :
    m.TakesAlike limits a b as bs := by
  unfold TakesAlike
  cases hp : Program.ofTokens limits.nesting as with
  | ok p =>
    obtain ⟨q, hq, hpq⟩ := Program.exists_ofTokens_of_ok ha hb h hp
    have hreada := Program.ofSource_eq_ok.2 ⟨ha, hp⟩
    have hreadb := Program.ofSource_eq_ok.2 ⟨hb, hq⟩
    rw [hreada, hreadb, interpret_of_ofSource hreada, interpret_of_ofSource hreadb]
    exact ⟨hpq, Program.run_endAlike hpq limits ⟨rfl, rfl, rfl, rfl, rfl⟩⟩
  | error e =>
    obtain ⟨e', he', haligned⟩ := Program.exists_ofTokens_of_error ha hb h hp
    rw [Program.ofSource_eq_error.2 (.inr ⟨as, ha, hp⟩),
      Program.ofSource_eq_error.2 (.inr ⟨bs, hb, he'⟩)]
    exact haligned

/-- A call of what is no function, with the words set close together and far apart. -/
theorem Machine.takesAlike_of_wording_call :
    let a := "let x=nil;x();"
    let b := "let x = # nothing\n  nil ;\n\tx ( ) ; // called"
    ∃ as bs, tokenize a = .ok as ∧ tokenize b = .ok bs ∧
      as.map Token.wording = bs.map Token.wording ∧
      (Machine.fresh []).TakesAlike ⟨4, 8, 8⟩ a b as bs ∧
      ∃ m', (interpret ⟨4, 8, 8⟩ b).run (Machine.fresh []) =
        .error (.fault (.located (.notCallable .nil) ⟨3, 4⟩)) m' := by
  have hwording : (tokenize "let x=nil;x();").map (List.map Token.wording) =
      (tokenize "let x = # nothing\n  nil ;\n\tx ( ) ; // called").map
        (List.map Token.wording) := by
    cbv
  have hread : (tokenize "let x=nil;x();").isOk = true := by cbv
  have hstop : (interpret ⟨4, 8, 8⟩ "let x = # nothing\n  nil ;\n\tx ( ) ; // called").stop?
      (Machine.fresh []) = some (.fault (.located (.notCallable .nil) ⟨3, 4⟩)) := by
    cbv
  cases ha : tokenize "let x=nil;x();" with
  | error f => rw [ha] at hread; cases hread
  | ok as =>
    cases hb : tokenize "let x = # nothing\n  nil ;\n\tx ( ) ; // called" with
    | error f => rw [ha, hb] at hwording; cases hwording
    | ok bs =>
      rw [ha, hb] at hwording
      have h := Except.ok.inj hwording
      exact ⟨as, bs, ha, hb, h, Machine.takesAlike_of_wording ha hb h _ _,
        Run.stop?_eq_some.1 hstop⟩

end Scripting
