import Scripting.Proofs.Grammar.StatementAlike
import Scripting.Proofs.Scope.Encapsulation
import Scripting.Proofs.Session.Reachable
import Scripting.Proofs.Token.Standing

set_option autoImplicit false

/-! # Machines of sessions are intact

No token is a literal for a function, so the programs that are read are free of functions, and the
functions that come about in a session are declared in it. Each of them is kept on the machine, and
its code is free of functions too: the machine is `Machine.Intact` and `Machine.FunctionFree`. So
the machines of sessions are such that a run on them keeps to the scopes that it can come to. -/

namespace Scripting

/-! ## Reading -/

theorem Cut.type_of_token? {cut : Cut} {p : Position} {t : Token} (h : cut.token? p = some t) :
    ∀ v ∈ Grammar.literalValue? t, v.type ≠ .function := by
  obtain ⟨sort, text, rest⟩ := cut
  intro v hv
  cases sort with
  | word =>
    cases h
    unfold Grammar.literalValue? at hv
    split at hv
    · cases hv; nofun
    · cases hv; nofun
    · rcases keywordValue?_cases hv with ⟨-, rfl⟩ | ⟨-, rfl⟩ | ⟨-, rfl⟩ <;> nofun
    · cases hv
  | _ => cases h <;> cases hv <;> nofun

/-- No token that `tokenize` makes is a literal for a function. -/
theorem tokenize_type {source : String} {tokens : List Token} (h : tokenize source = .ok tokens) :
    ∀ t ∈ tokens, ∀ v ∈ Grammar.literalValue? t, v.type ≠ .function := by
  obtain ⟨-, rfl⟩ := tokenize_eq_ok.1 h
  exact scanFrom_forall (fun _ _ => Cut.type_of_token?) (fun _ => nofun) (Position.start_begins _)
    (by simp)

/-- A program that `ofSource` reads is free of functions. -/
theorem Program.functionFree_of_ofSource {depth : Nat} {source : String} {tokens : List Token}
    {p : Program} (h : ofSource depth source = .ok (tokens, p)) :
    p.Corresponds .functionFree p := by
  obtain ⟨htokens, hp⟩ := ofSource_eq_ok.1 h
  exact corresponds_self_of_ofTokens (fun t ht => .self
    (fun v hv => ⟨rfl, Value.plain_of_type (tokenize_type htokens t ht v hv)⟩) rfl rfl trivial) hp

/-! ## Running -/

/-- A machine stays `Intact`, and its functions free of functions. -/
def Keeping.intact : Keeping where
  toCorrespondence := .functionFree
  kept m := m.Intact ∧ m.FunctionFree
  known n id := id < n
  visible _ := True
  own _ := True

theorem Keeping.intact_lawful : intact.Lawful where
  places := Correspondence.functionFree_places
  known_mono hn hid := Nat.lt_of_lt_of_le hid hn
  own_visible := id
  literal h _ := h.2.within
  get hm _ hget := by
    obtain ⟨j, -, hv⟩ := Option.bind_eq_some_iff.1 hget
    obtain ⟨s, hs, hv⟩ := Option.bind_eq_some_iff.1 hv
    exact hm.1 hs (Scope.binds_of_find? hv)
  assign hm _ hv hassign := by
    obtain ⟨j, -, rfl⟩ := Option.map_eq_some_iff.1 hassign
    exact ⟨hm.1.define hv j _, hm.2⟩
  define {_ i _} hm _ hv name := ⟨hm.1.define hv i name, hm.2⟩
  child {_ i} hm _ := ⟨trivial, hm.1.child i, hm.2⟩
  keep {_ f} hm hbody _ := ⟨⟨hm.1.keep f, hm.2.keep hbody⟩, Nat.lt_succ_self _⟩
  function {m id f} hm hid hf := by
    have hf' : m.functions[id]? = some m.functions[id] := Array.getElem?_eq_getElem hid
    rw [hf', Option.getD_some] at hf
    exact ⟨hf ▸ hm.2 _ (Array.getElem_mem hid), trivial⟩
  streams hm hscopes hfunctions := by
    simpa only [intact, Machine.Intact, Machine.FunctionFree, hscopes, hfunctions] using hm

/-- Every function that is bound on a `Reachable` machine is kept there, and none of those that are
    kept has a function in its code. -/
theorem Machine.Reachable.intact {m : Machine} (h : m.Reachable) : m.Intact ∧ m.FunctionFree := by
  induction h with
  | fresh input =>
    have hbare : (Machine.bare input).Intact := by
      intro i s v hs hv
      obtain ⟨name, hmem⟩ := hv
      match i, hs with
      | 0, hs => cases hs; cases hmem
    exact ⟨hbare.define (v := .builtin .input) trivial globals Builtin.input.name, by
      simp [Machine.FunctionFree, Machine.fresh, Machine.bare]⟩
  | streams _ input inputEnd output journal ih => exact ih
  | @after m _ limits source ih =>
    have hafter : m.after limits source = (interpret limits source).leaves m := by
      unfold Machine.after Run.leaves
      cases (interpret limits source).run m <;> rfl
    rw [hafter]
    cases hread : Program.ofSource limits.nesting source with
    | error e =>
      rw [interpret, hread]
      exact ih
    | ok r =>
      have hfree := Program.functionFree_of_ofSource hread
      rw [interpret_of_ofSource hread]
      exact Keeping.kept_of_program Keeping.intact_lawful hfree limits trivial ih

/-- A text that `interpret` runs on a `Reachable` machine keeps to the scopes that can be come to
    from the outermost one: it leaves the others as they are, such as those of earlier calls that no
    closure has captured, and what they hold makes no difference to it. -/
theorem Machine.Reachable.encapsulates_interpret {m : Machine} (h : m.Reachable) (limits : Limits)
    (source : String) :
    m.Encapsulates globals (fun _ => id) (interpret limits source) := by
  obtain ⟨hintact, hfree⟩ := h.intact
  refine encapsulates_of_relates hintact hfree (Q := fun _ => Simulation.Any) (fun _ => rfl)
    fun m' hagree => ?_
  cases hread : Program.ofSource limits.nesting source with
  | error refusal =>
    rw [interpret, hread]
    exact .throw rfl
  | ok r =>
    rw [interpret_of_ofSource hread]
    exact Program.run_relates (Simulation.together_lawful hagree) limits (.inl .here)
      (Program.functionFree_of_ofSource hread)

end Scripting
