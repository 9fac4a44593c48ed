import Mathlib.Logic.Denumerable
import Scripting.Proofs.Evaluation.Keeping
import Scripting.Proofs.Session.Composition
import Scripting.Proofs.Session.Pointing

set_option autoImplicit false

/-! # Nodes of several texts

Functions keep their nodes, and can be called from any text behind the one that they stand in. So a
fault may be raised at a node of another text than the one that is run. Which text it is shows when
the nodes of all texts are placed elsewhere, those of each text by a `Placing` of its own: the fault
goes where the nodes of the text go. To find the text, the nodes are placed on lines that tell the
texts apart. -/

namespace Scripting

/-! ## Places apart from one another -/

namespace Placing

/-- The nodes of the text with the number `i`, on lines of their own. -/
def apart (i : Nat) : Placing := fun p =>
  ⟨Denumerable.equiv₂ (Nat × Int) Int (i, p.line), p.column⟩

theorem apart_inj {i j : Nat} {p q : Position} (h : apart i p = apart j q) : i = j ∧ p = q := by
  obtain ⟨line, column⟩ := p
  obtain ⟨line', column'⟩ := q
  simp only [apart, Position.mk.injEq, EmbeddingLike.apply_eq_iff_eq, Prod.mk.injEq] at h
  obtain ⟨⟨rfl, rfl⟩, rfl⟩ := h
  exact ⟨rfl, rfl⟩

end Placing

/-- The correspondence of trees with the nodes of several `texts` apart from one another to the same
    trees with the nodes placed as `F` tells for each text. Words stand in the texts at their
    positions. -/
def Correspondence.apart (texts : Nat → Option String) (F : Nat → Placing) : Correspondence where
  literal v v' := v' = v
  point w p p' := ∀ word ∈ w, ∃ i text q rest, texts i = some text ∧ p = Placing.apart i q ∧
    p' = F i q ∧ q.Begins text.toList rest ∧ word.text.toList <+: rest

section Texts

variable {texts : Nat → Option String} {i depth : Nat} {source : String} {tokens : List Token}
  {p : Program}

theorem Token.StandsIn.apart (hi : texts i = some source) {t : Token}
    (h : t.StandsIn source.toList) (F : Nat → Placing) :
    (Correspondence.apart texts F).Tokens (t.placed (.apart i)) (t.placed (F i)) where
  kind := rfl
  lexeme := rfl
  literal := by
    have hvalue (f : Placing) : Grammar.literalValue? (t.placed f) = Grammar.literalValue? t := rfl
    rw [hvalue, hvalue]
    cases Grammar.literalValue? t with
    | none => exact .none
    | some v => exact .some rfl
  place := nofun
  word word hword := by
    obtain ⟨-, hstands⟩ := h.tokens.word
    obtain ⟨rest, hbegins, hrest⟩ := hstands word hword
    exact ⟨i, source, t.position, rest, hi, rfl, rfl, hbegins, hrest⟩
  token := trivial

/-- A program that `ofSource` reads from one of the `texts`, apart from the others and placed as
    told. -/
theorem Program.apart_of_ofSource (hi : texts i = some source)
    (h : ofSource depth source = .ok (tokens, p)) (F : Nat → Placing) :
    (p.placed (.apart i)).Corresponds (.apart texts F) (p.placed (F i)) := by
  obtain ⟨htokens, hp⟩ := ofSource_eq_ok.1 h
  have hcorrespond : List.Forall₂ (Correspondence.apart texts F).Tokens
      (tokens.map (Token.placed (.apart i))) (tokens.map (Token.placed (F i))) := by
    rw [List.forall₂_map_left_iff, List.forall₂_map_right_iff]
    exact List.forall₂_same.2 fun t ht => (tokenize_standsIn htokens t ht).apart hi F
  obtain ⟨p', hp', hcorresponds⟩ := corresponds_of_ofTokens hcorrespond (ofTokens_placed hp _)
  cases (ofTokens_placed hp _).symm.trans hp'
  exact hcorresponds

end Texts

/-! ## Runs among functions of other texts -/

/-- Whether the functions in `fs` and `fs'` correspond one by one. -/
structure Function.AllCorrespond (k : Correspondence) (fs fs' : Array Function) : Prop where
  size : fs'.size = fs.size
  each : ∀ id : Nat, Function.Corresponds k (fs[id]?.getD (.idle "" []))
    (fs'[id]?.getD (.idle "" []))

theorem Function.AllCorrespond.machine {k : Correspondence} {fs fs' : Array Function}
    (h : AllCorrespond k fs fs') (m : Machine) :
    Machine.Corresponds k { m with functions := fs } { m with functions := fs' } :=
  ⟨rfl, h.size, h.each, rfl, rfl, rfl⟩

theorem Program.leaves_corresponds {k : Correspondence}
    (hliteral : ∀ {v v' : Value}, k.literal v v' → v' = v) {p p' : Program}
    (hp : p.Corresponds k p') {m m' : Machine} (hm : m.Corresponds k m') (limits : Limits)
    (scope : Nat) :
    ((p.run limits scope).leaves m).Corresponds k ((p'.run limits scope).leaves m') := by
  unfold Run.leaves
  cases hrun : (p.run limits scope).run m with
  | ok a m₁ =>
    obtain ⟨m₁', hrun', hm₁⟩ := exists_run_of_ok hliteral hp hm hrun
    rw [hrun']
    exact hm₁
  | error e m₁ =>
    obtain ⟨e', m₁', hrun', hm₁, -⟩ := exists_run_of_error hliteral hp hm hrun
    rw [hrun']
    exact hm₁

section Runs

variable {texts : Nat → Option String} {i : Nat} {p : Program} {limits : Limits} {m : Machine}
  {fs : Array Function} {placed : (Nat → Placing) → Array Function}

/-- The run of the program `p`, placed by `f`, on the machine `m` with the functions `fs`. -/
def Program.runAmong (limits : Limits) (f : Placing) (p : Program) (fs : Array Function)
    (m : Machine) : EStateM.Result Stop Machine Unit :=
  ((p.placed f).run limits Machine.globals).run { m with functions := fs }

/-- The functions that are kept behind such a run, as `runAmong` makes it. -/
def Program.keptAmong (limits : Limits) (f : Placing) (p : Program) (fs : Array Function)
    (m : Machine) : Array Function :=
  (((p.placed f).run limits Machine.globals).leaves { m with functions := fs }).functions

theorem Program.keptAmong_apart {F : Nat → Placing} {fs' : Array Function}
    (hp : (p.placed (.apart i)).Corresponds (.apart texts F) (p.placed (F i)))
    (hfs : Function.AllCorrespond (.apart texts F) fs fs') :
    Function.AllCorrespond (.apart texts F) (p.keptAmong limits (.apart i) fs m)
      (p.keptAmong limits (F i) fs' m) := by
  have hleft := leaves_corresponds (k := .apart texts F) id hp (hfs.machine m) limits
    Machine.globals
  exact ⟨hleft.size, hleft.functions⟩

/-- A fault is raised at a node of one of the `texts`, wherever the nodes of the texts are
    placed. -/
theorem Program.exists_text_of_runAmong
    (hp : ∀ F, (p.placed (.apart i)).Corresponds (.apart texts F) (p.placed (F i)))
    (hfs : ∀ F, Function.AllCorrespond (.apart texts F) fs (placed F)) {F : Nat → Placing}
    {f : Fault} {m' : Machine}
    (h : p.runAmong limits (F i) (placed F) m = .error (.fault f) m') :
    ∃ j text q, texts j = some text ∧ f = .located f.cause (F j q) ∧
      (Fault.located f.cause q).StandsIn text.toList ∧
      ∀ G, ∃ m', p.runAmong limits (G i) (placed G) m =
        .error (.fault (.located f.cause (G j q))) m' := by
  cases hrun : p.runAmong limits (.apart i) fs m with
  | ok a m₁ =>
    obtain ⟨_, hrun', -⟩ := exists_run_of_ok (k := .apart texts F) id (hp F) ((hfs F).machine m)
      hrun
    cases hrun'.symm.trans h
  | error e m₁ =>
    have hstop (G : Nat → Placing) : ∃ e' m', p.runAmong limits (G i) (placed G) m =
        .error e' m' ∧ e.Corresponds (.apart texts G) e' := by
      obtain ⟨e', m', hrun', -, he⟩ := exists_run_of_error (k := .apart texts G) id (hp G)
        ((hfs G).machine m) hrun
      exact ⟨e', m', hrun', he⟩
    obtain ⟨e', _, hrun', he⟩ := hstop F
    cases hrun'.symm.trans h
    cases he with
    | other hfault => exact absurd rfl (hfault f)
    | @fault cause w p p' hsubject hpoint =>
      obtain ⟨j, text, q, rest, hj, rfl, rfl, hbegins, hrest⟩ := hpoint w rfl
      refine ⟨j, text, q, hj, rfl, ⟨q, rest, rfl, hbegins, ?_⟩, fun G => ?_⟩
      · exact Cause.heads_of_subject? hsubject hrest
      · obtain ⟨e', m', hrun', he⟩ := hstop G
        obtain ⟨_, w', _, _, hfault, rfl, -, hpoint'⟩ := he.exists_subject
        obtain ⟨rfl, rfl⟩ := Fault.located_inj hfault
        obtain ⟨_, _, _, _, -, happart, rfl, -⟩ := hpoint' w' rfl
        obtain ⟨rfl, rfl⟩ := Placing.apart_inj happart
        exact ⟨m', hrun'⟩

end Runs

end Scripting
