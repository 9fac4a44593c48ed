import Mathlib
import Scripting.Proofs.Evaluation.Likeness
import Scripting.Proofs.Grammar.Concatenation
import Scripting.Proofs.Session.Texts
import Scripting.Proofs.Token.Continuation

set_option autoImplicit false

/-! # Sessions are composed of texts

Two texts with a line feed between them, run as one, have the effect of the first and then of the
second: `Machine.Composes`. Only the positions of the second differ: its nodes stand further down in
the whole text. Where the nodes of a program stand makes no difference to what it does, except that
a fault points at where its node stands, and even which node that is does not depend on the
places. -/

namespace Scripting

/-! ## Reading -/

theorem Token.tokens_placed (f : Placing) (t : Token) :
    (Correspondence.placing f).Tokens t (t.placed f) where
  kind := rfl
  lexeme := rfl
  literal := by
    have hvalue : Grammar.literalValue? (t.placed f) = Grammar.literalValue? t := rfl
    rw [hvalue]
    cases Grammar.literalValue? t with
    | none => exact .none
    | some v => exact .some rfl
  place := rfl
  word := rfl
  token := trivial

theorem Program.eq_placed {f : Placing} {p p' : Program} (h : p.Corresponds (.placing f) p') :
    p' = p.placed f := by
  induction h with
  | nil => rfl
  | cons hs _ ih =>
    rw [ih, Stmt.eq_placed (Correspondence.placing_places f) hs]
    rfl

/-- Tokens placed elsewhere by `f` are read as the program placed elsewhere. -/
theorem Program.ofTokens_placed {depth : Nat} {tokens : List Token} {p : Program}
    (h : ofTokens depth tokens = .ok p) (f : Placing) :
    ofTokens depth (tokens.map (Token.placed f)) = .ok (p.placed f) := by
  have htokens : List.Forall₂ (Correspondence.placing f).Tokens tokens
      (tokens.map (Token.placed f)) := by
    rw [List.forall₂_map_right_iff]
    exact List.forall₂_same.2 fun t _ => t.tokens_placed f
  obtain ⟨p', hp', hcorresponds⟩ := corresponds_of_ofTokens htokens h
  rw [hp', eq_placed hcorresponds]

/-- The text `b` behind `a` is read as it would be alone, but for where its nodes stand. -/
theorem Program.ofSource_append_lineFeed {depth : Nat} {a b : String} {as bs : List Token}
    {p q : Program} (ha : ofSource depth a = .ok (as, p)) (hb : ofSource depth b = .ok (bs, q)) :
    ∃ tokens, ofSource depth (a ++ "\n" ++ b) =
      .ok (tokens, p ++ q.placed (.down (a.toList.count '\n' + 1))) := by
  obtain ⟨hatokens, hp⟩ := ofSource_eq_ok.1 ha
  obtain ⟨hbtokens, hq⟩ := ofSource_eq_ok.1 hb
  obtain ⟨found, last, rfl, hopen, -, htokens⟩ := tokenize_append_lineFeed hatokens hbtokens
  have hfound : List.Forall₂ (Correspondence.placing id).Tokens found found :=
    List.forall₂_same.2 fun t _ => t.tokens_placed id
  have hmoved (f : Placing) : List.Forall₂ (Correspondence.placing f).Tokens bs
      (bs.map (Token.placed f)) := by
    rw [List.forall₂_map_right_iff]
    exact List.forall₂_same.2 fun t _ => t.tokens_placed f
  obtain ⟨p', q', hread, hp', hq'⟩ := ofTokens_append hfound (hmoved _) hopen hp hq
  rw [eq_placed hp', placed_id, eq_placed hq'] at hread
  exact ⟨_, ofSource_eq_ok.2 ⟨htokens, hread⟩⟩

/-! ## Where nodes stand -/

namespace Placing

/-- The nodes of earlier programs, on even lines. -/
def earlier : Placing := fun p => ⟨2 * p.line, p.column⟩

/-- The nodes of a further program, on odd lines. -/
def further : Placing := fun p => ⟨2 * p.line + 1, p.column⟩

/-- What is on odd lines placed by `f`, and what is on even ones where it was. -/
def resolve (f : Placing) : Placing := fun p =>
  if p.line % 2 = 0 then ⟨p.line / 2, p.column⟩ else f ⟨p.line / 2, p.column⟩

variable (f : Placing) (p : Position)

theorem resolve_earlier : f.resolve (earlier p) = p := by
  have heven : 2 * p.line % 2 = 0 := by omega
  have hhalf : 2 * p.line / 2 = p.line := by omega
  simp [resolve, earlier, heven, hhalf]

theorem resolve_further : f.resolve (further p) = f p := by
  have hodd : ¬ (2 * p.line + 1) % 2 = 0 := by omega
  have hhalf : (2 * p.line + 1) / 2 = p.line := by omega
  simp only [resolve, further, if_neg hodd, hhalf]

end Placing

/-- A program whose nodes are told from those of earlier ones, and the program placed by `f`. -/
theorem Program.placed_further_corresponds (f : Placing) (p : Program) :
    (p.placed .further).Corresponds (.placing f.resolve) (p.placed f) := by
  unfold Program.Corresponds Program.placed
  rw [List.forall₂_map_left_iff, List.forall₂_map_right_iff]
  exact List.forall₂_same.2 fun s _ =>
    s.placed_corresponds_placed (fun _ => rfl) fun _ p => (f.resolve_further p).symm

/-- The machine `m` with its functions told from those of further programs. -/
def Machine.earlier (m : Machine) : Machine :=
  { m with functions := m.functions.map (Function.placed .earlier) }

theorem Machine.earlier_corresponds (f : Placing) (m : Machine) :
    m.earlier.Corresponds (.placing f.resolve) m where
  scopes := rfl
  size := by simp [Machine.earlier]
  functions i := by
    rw [Machine.earlier, Array.getElem?_map]
    cases m.functions[i]? with
    | none => exact ⟨rfl, rfl, ⟨trivial, (f.resolve_earlier .unknown).symm⟩, rfl⟩
    | some g =>
      have hbody := g.body.placed_corresponds_placed (k := .placing f.resolve)
        (f := Placing.earlier) (g := id) (fun _ => rfl) fun _ p => (f.resolve_earlier p).symm
      rw [Stmt.placed_id] at hbody
      exact ⟨rfl, rfl, hbody, rfl⟩
  input := rfl
  inputEnd := rfl
  output := rfl

/-! ## Ends -/

/-- A function without the positions of its body. -/
def Function.unplaced (f : Function) : Function :=
  { f with body := f.body.unplaced }

/-- Whether `m` and `m'` are the same but for where the nodes of their functions are placed, and for
    the records of calls, which tell of these places. -/
structure Machine.SameButPlaces (m m' : Machine) : Prop where
  scopes : m'.scopes = m.scopes
  functions : m'.functions.map Function.unplaced = m.functions.map Function.unplaced
  input : m'.input = m.input
  inputEnd : m'.inputEnd = m.inputEnd
  output : m'.output = m.output

theorem Machine.Corresponds.sameButPlaces {f : Placing} {m m' : Machine}
    (h : m.Corresponds (.placing f) m') : m.SameButPlaces m' where
  scopes := h.scopes
  functions := by
    refine Array.ext (by simp [h.size]) fun i hi hi' => ?_
    rw [Array.size_map] at hi hi'
    have hfunction := h.functions i
    rw [Array.getElem?_eq_getElem hi, Array.getElem?_eq_getElem hi'] at hfunction
    obtain ⟨hname, hparameters, hs, hclosure⟩ := hfunction
    have hs' := Stmt.eq_placed (Correspondence.placing_places f) hs
    simp only [Option.getD_some] at hname hparameters hs' hclosure
    simp only [Array.getElem_map, Function.unplaced, hname, hparameters, hs', hclosure,
      Stmt.unplaced_placed]
  input := h.input
  inputEnd := h.inputEnd
  output := h.output

theorem Machine.SameButPlaces.trans_left {m m' m'' : Machine} (h : m.SameButPlaces m')
    (h' : m.SameButPlaces m'') : m'.SameButPlaces m'' :=
  ⟨h'.scopes.trans h.scopes.symm, h'.functions.trans h.functions.symm, h'.input.trans h.input.symm,
    h'.inputEnd.trans h.inputEnd.symm, h'.output.trans h.output.symm⟩

theorem Stop.Corresponds.eq_of_placing {f : Placing} {cause : Cause} {p : Position} {e : Stop}
    (h : (Stop.fault (.located cause p)).Corresponds (.placing f) e) :
    e = .fault (.located cause (f p)) := by
  obtain ⟨_, _, _, _, hfault, rfl, -, hpoint⟩ := h.exists_subject
  obtain ⟨rfl, rfl⟩ := Fault.located_inj hfault
  rw [hpoint]

namespace Program

/-- Whether a fault with the `cause` is raised at a node of the program `q`: wherever the nodes are
    placed, the fault points at where the node at the position `p` is. -/
def RaisesAt (limits : Limits) (m : Machine) (q : Program) (cause : Cause) (p : Position) : Prop :=
  ∀ f : Placing, ∃ m', ((q.placed f).run limits Machine.globals).run m =
    .error (.fault (.located cause (f p))) m'

/-- Whether the program `q` stops for a reason to which the places of its nodes do not matter: the
    stop `e` is no fault, or is raised at a node of an earlier program. -/
def StopsElsewhere (limits : Limits) (m : Machine) (q : Program) (e : Stop) : Prop :=
  ∀ f : Placing, ∃ m', ((q.placed f).run limits Machine.globals).run m = .error e m'

/-- The program `q` leaves the same machine wherever its nodes are placed, and ends in the same
    way. -/
theorem placed_run (limits : Limits) (m : Machine) (q : Program) :
    ∃ m₁ : Machine,
      (∀ f : Placing, ∃ m', ((q.placed f).run limits Machine.globals).run m = .ok () m' ∧
        m₁.SameButPlaces m') ∨
      (∃ cause p, ∀ f : Placing, ∃ m', ((q.placed f).run limits Machine.globals).run m =
        .error (.fault (.located cause (f p))) m' ∧ m₁.SameButPlaces m') ∨
      (∃ e, ∀ f : Placing, ∃ m', ((q.placed f).run limits Machine.globals).run m = .error e m' ∧
        m₁.SameButPlaces m') := by
  cases hrun : ((q.placed .further).run limits Machine.globals).run m.earlier with
  | ok a m₁ =>
    refine ⟨m₁, .inl fun f => ?_⟩
    obtain ⟨m', hrun', hm'⟩ := exists_run_of_ok (k := .placing f.resolve) id
      (placed_further_corresponds f q) (m.earlier_corresponds f) hrun
    exact ⟨m', hrun', hm'.sameButPlaces⟩
  | error e m₁ =>
    have hstop (f : Placing) : ∃ e' m', ((q.placed f).run limits Machine.globals).run m =
        .error e' m' ∧ e.Corresponds (.placing f.resolve) e' ∧ m₁.SameButPlaces m' := by
      obtain ⟨e', m', hrun', hm', he⟩ := exists_run_of_error (k := .placing f.resolve) id
        (placed_further_corresponds f q) (m.earlier_corresponds f) hrun
      exact ⟨e', m', hrun', he, hm'.sameButPlaces⟩
    obtain ⟨_, _, -, he, -⟩ := hstop id
    refine ⟨m₁, .inr ?_⟩
    cases he with
    | @fault cause _ p _ _ _ =>
      by_cases heven : p.line % 2 = 0
      · refine .inr ⟨.fault (.located cause ⟨p.line / 2, p.column⟩), fun f => ?_⟩
        obtain ⟨e', m', hrun', he, hm'⟩ := hstop f
        rw [he.eq_of_placing, Placing.resolve, if_pos heven] at hrun'
        exact ⟨m', hrun', hm'⟩
      · refine .inl ⟨cause, ⟨p.line / 2, p.column⟩, fun f => ?_⟩
        obtain ⟨e', m', hrun', he, hm'⟩ := hstop f
        rw [he.eq_of_placing, Placing.resolve, if_neg heven] at hrun'
        exact ⟨m', hrun', hm'⟩
    | other hfault =>
      refine .inr ⟨e, fun f => ?_⟩
      obtain ⟨e', m', hrun', he, hm'⟩ := hstop f
      cases he with
      | fault _ _ => exact absurd rfl (hfault _)
      | other _ => exact ⟨m', hrun', hm'⟩

end Program

/-! ## Composition -/

/-- Whether the texts `a` and `b` with a line feed between them do on the machine `m` what the first
    does and, unless it is stopped, the second, which spells `q`, after it. The machines left behind
    are the same but for where the nodes of functions stand. A run that is stopped is so for the
    same reason: a fault that is raised at a node of the second text points further down by the
    lines before that text, at the same column, and every other one points at the same place. -/
def Machine.Composes (limits : Limits) (m : Machine) (a b : String) (q : Program) : Prop :=
  match (interpret limits a).run m with
  | .error e m₁ => (interpret limits (a ++ "\n" ++ b)).run m = .error e m₁
  | .ok _ m₁ =>
    match (interpret limits b).run m₁, (interpret limits (a ++ "\n" ++ b)).run m with
    | .ok _ m₂, .ok _ m₂' => m₂.SameButPlaces m₂'
    | .error e m₂, .error e' m₂' => m₂.SameButPlaces m₂' ∧
      ((∃ cause pos, q.RaisesAt limits m₁ cause pos ∧ e = .fault (.located cause pos) ∧
          e' = .fault (.located cause ⟨pos.line + (1 + a.toList.count '\n'), pos.column⟩)) ∨
        (q.StopsElsewhere limits m₁ e ∧ e' = e))
    | _, _ => False

/-- Texts that `ofSource` can read compose, on every machine. -/
theorem Machine.composes {limits : Limits} {a b : String} {as bs : List Token} {p q : Program}
    (ha : Program.ofSource limits.nesting a = .ok (as, p))
    (hb : Program.ofSource limits.nesting b = .ok (bs, q)) (m : Machine) :
    m.Composes limits a b q := by
  obtain ⟨tokens, hboth⟩ := Program.ofSource_append_lineFeed ha hb
  rw [Composes, interpret_of_ofSource ha, interpret_of_ofSource hb, interpret_of_ofSource hboth,
    Program.run_append, EStateM.run_bind]
  cases hrun : (p.run limits Machine.globals).run m with
  | error e m₁ => rfl
  | ok _ m₁ =>
    obtain ⟨m₂, hnormal | ⟨cause, pos, hraises⟩ | ⟨e, helsewhere⟩⟩ := q.placed_run limits m₁
    · obtain ⟨_, halone, hsame⟩ := hnormal id
      obtain ⟨_, hbelow, hsame'⟩ := hnormal (.down (a.toList.count '\n' + 1))
      rw [Program.placed_id] at halone
      simp only [halone, hbelow]
      exact hsame.trans_left hsame'
    · obtain ⟨_, halone, hsame⟩ := hraises id
      obtain ⟨_, hbelow, hsame'⟩ := hraises (.down (a.toList.count '\n' + 1))
      rw [Program.placed_id] at halone
      simp only [halone, hbelow]
      refine ⟨hsame.trans_left hsame', .inl ⟨cause, pos, fun f => ?_, rfl, ?_⟩⟩
      · obtain ⟨m', hrun', -⟩ := hraises f
        exact ⟨m', hrun'⟩
      · simp [Placing.down, Int.add_comm]
    · obtain ⟨_, halone, hsame⟩ := helsewhere id
      obtain ⟨_, hbelow, hsame'⟩ := helsewhere (.down (a.toList.count '\n' + 1))
      rw [Program.placed_id] at halone
      simp only [halone, hbelow]
      refine ⟨hsame.trans_left hsame', .inr ⟨fun f => ?_, trivial⟩⟩
      obtain ⟨m', hrun', -⟩ := helsewhere f
      exact ⟨m', hrun'⟩

/-- A fault at a node of the second text, which is on its second line and on the fourth of both. -/
theorem Machine.composes_of_negation :
    let limits : Limits := ⟨4, 8, 8⟩
    let a := "let x = nil; # nothing\n"
    let b := "print x;\n  -x;"
    ∃ as p bs q, Program.ofSource limits.nesting a = .ok (as, p) ∧
      Program.ofSource limits.nesting b = .ok (bs, q) ∧
      (Machine.fresh []).Composes limits a b q ∧
      ∃ m', (interpret limits (a ++ "\n" ++ b)).run (Machine.fresh []) =
        .error (.fault (.located (.typeMismatch (.negation .nil)) ⟨4, 3⟩)) m' := by
  obtain ⟨as, p, ha⟩ := Program.exists_of_isOk_ofSource
    (show (Program.ofSource 4 "let x = nil; # nothing\n").isOk = true by cbv)
  obtain ⟨bs, q, hb⟩ := Program.exists_of_isOk_ofSource
    (show (Program.ofSource 4 "print x;\n  -x;").isOk = true by cbv)
  have hstop : (interpret ⟨4, 8, 8⟩ ("let x = nil; # nothing\n" ++ "\n" ++ "print x;\n  -x;")).stop?
      (Machine.fresh []) = some (.fault (.located (.typeMismatch (.negation .nil)) ⟨4, 3⟩)) := by
    cbv
  exact ⟨as, p, bs, q, ha, hb, @Machine.composes ⟨4, 8, 8⟩ _ _ _ _ _ _ ha hb _,
    Run.stop?_eq_some.1 hstop⟩

end Scripting
