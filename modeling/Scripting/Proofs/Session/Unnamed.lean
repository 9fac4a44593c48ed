import Scripting.Proofs.Session.Intact
import Scripting.Proofs.Session.WithoutInput

set_option autoImplicit false

/-! # Programs that do not name the input

The function that asks for input, `Builtin.input`, is a value like others: it can be handed on,
bound to other names, kept by closures and returned. But at first it is bound to its own name alone,
and a value only comes about as a literal, as the result of an operation, as a function that is
declared, or by looking up a name. So a program in which that name is not an identifier never comes
by it, and runs in lockstep with itself whatever there is to read. The invariant,
`ScopeTree.BuiltinsAtHome`, is about names and not about scopes: whoever declares a variable of that
name binds it to something else, and looking it up is all that has to be left out. -/

namespace Scripting

/-! ## Builtin functions under their own names -/

/-- Whether no scope of the tree `t` binds a builtin function to any name but its own. -/
def ScopeTree.BuiltinsAtHome (t : ScopeTree) : Prop :=
  ∀ ⦃i : Nat⦄ ⦃s : Scope⦄ ⦃name : String⦄ ⦃b : Builtin⦄, t.scopes[i]? = some s →
    s.find? name = some (.builtin b) → name = b.name

namespace ScopeTree.BuiltinsAtHome

variable {t : ScopeTree}

/-- A builtin function may be bound to its own name, and other values to any name. -/
theorem define (h : t.BuiltinsAtHome) {name : String} {v : Value}
    (hv : ∀ b, v = .builtin b → name = b.name) (i : Nat) :
    (t.define i name v).BuiltinsAtHome := by
  intro j s other b hs hb
  rw [getElem?_define] at hs
  split at hs
  · obtain ⟨s', hs', rfl⟩ := Option.map_eq_some_iff.1 hs
    rw [Scope.find?_bind] at hb
    split at hb
    · rename_i hname
      exact hname.trans (hv b (Option.some.inj hb))
    · exact h hs' hb
  · exact h hs hb

/-- Nothing is bound in a new scope, which `child` opens. -/
theorem child (h : t.BuiltinsAtHome) (i : Nat) : (t.child i).BuiltinsAtHome := by
  intro j s name b hs hb
  rw [getElem?_child] at hs
  split at hs
  · cases hs
    cases hb
  · exact h hs hb

/-- Names of other things than builtin functions are not bound to them, so `get?` finds none
    there. -/
theorem get?_ne (h : t.BuiltinsAtHome) {i : Nat} {name : String} {v : Value}
    (hname : ∀ b : Builtin, name ≠ b.name) (hget : t.get? i name = some v) (b : Builtin) :
    v ≠ .builtin b := by
  rintro rfl
  obtain ⟨j, -, hb⟩ := Option.bind_eq_some_iff.1 hget
  obtain ⟨s, hs, hb⟩ := Option.bind_eq_some_iff.1 hb
  exact hname b (h hs hb)

end ScopeTree.BuiltinsAtHome

theorem Machine.fresh_builtinsAtHome (input : List Char) :
    (Machine.fresh input).scopes.BuiltinsAtHome := by
  have hroot : ScopeTree.root.BuiltinsAtHome := by
    intro i s name b hs hb
    cases i with
    | zero => cases hs; cases hb
    | succ i => cases hs
  exact hroot.define (fun b hb => congrArg Builtin.name (Value.builtin.inj hb)) globals

/-! ## Code that names no builtin function -/

/-- The `Correspondence` of a tree to itself in which no literal is a function and no builtin
    function is named. -/
def Correspondence.namingNoBuiltin : Correspondence where
  literal v v' := v' = v ∧ v.type ≠ .function
  point w p p' := p' = p ∧ ∀ b : Builtin, w ≠ some (.name b.name)

theorem Correspondence.namingNoBuiltin_places : Correspondence.namingNoBuiltin.Places id :=
  ⟨fun h => h.1, fun h => h.1⟩

/-- A program that `ofSource` reads from tokens that name no builtin function names none. -/
theorem Program.namesNoBuiltin_of_ofSource {depth : Nat} {source : String} {tokens : List Token}
    {p : Program} (h : ofSource depth source = .ok (tokens, p))
    (hnames : ∀ t ∈ tokens, ∀ b : Builtin, t.is .identifier b.name = false) :
    p.Corresponds .namingNoBuiltin p := by
  obtain ⟨htokens, hp⟩ := ofSource_eq_ok.1 h
  refine corresponds_self_of_ofTokens (fun t ht => ?_) hp
  refine .self (fun v hv => ⟨rfl, tokenize_type htokens t ht v hv⟩) ⟨rfl, nofun⟩ ⟨rfl, ?_⟩ trivial
  intro b hword
  obtain ⟨hkind, hlexeme⟩ := Token.word?_eq_name_iff.1 hword
  have hnot := hnames t ht b
  simp [Token.is, hkind, hlexeme] at hnot

/-! ## The run with any input -/

/-- The machines `m` and `m'` differ in their input alone, which has been left on both as it was on
    `before` and `before'`, and they keep builtin functions under their names and in no code. -/
structure Machine.Unhearing (before before' m m' : Machine) : Prop where
  same : m' = { m with input := before'.input, inputEnd := before'.inputEnd }
  unread : m.input = before.input ∧ m.inputEnd = before.inputEnd
  home : m.scopes.BuiltinsAtHome
  code : ∀ f ∈ m.functions, f.body.Corresponds .namingNoBuiltin f.body

/-- A run beside itself on a machine with another input, in which no value is a builtin function. -/
def Simulation.unhearing (before before' : Machine) : Simulation where
  toCorrespondence := .namingNoBuiltin
  state := Machine.Unhearing before before'
  stop e e' := e' = e
  number := id
  known _ v := ∀ b, v ≠ .builtin b
  visible _ := True
  own _ := True

namespace Simulation

variable {before before' : Machine}

theorem unhearing_values {n : Nat} {v v' : Value} :
    (unhearing before before').Values n v v' ↔ v' = v ∧ ∀ b, v ≠ .builtin b := by
  constructor
  · intro h
    exact ⟨by simpa [unhearing] using h.eq, h.known⟩
  · rintro ⟨rfl, hv⟩
    exact ⟨hv, v'.renumbered_id.symm⟩

theorem unhearing_lawful : (unhearing before before').Lawful where
  known_mono _ h := h
  known_of_type h _ b hb := h (by rw [hb]; rfl)
  number_inj _ _ h := h
  own_visible := id
  literal := by
    rintro v _ ⟨rfl, hv⟩ n
    exact unhearing_values.2 ⟨rfl, fun b hb => hv (by rw [hb]; rfl)⟩
  fault := by
    rintro cause w p _ - ⟨rfl, -⟩
    rfl
  stop _ := rfl
  get := by
    rintro m _ i name p _ ⟨rfl, hunread, hhome, hcode⟩ - ⟨rfl, hname⟩
    cases hget : m.scopes.get? i name with
    | none => exact .none
    | some v =>
      have hbuiltin : ∀ b, v ≠ .builtin b :=
        hhome.get?_ne (fun b hb => hname b (by rw [hb])) hget
      exact .some (unhearing_values.2 ⟨rfl, hbuiltin⟩)
  assign := by
    rintro m _ i v v' ⟨rfl, hunread, hhome, hcode⟩ - hv name
    obtain ⟨rfl, hbuiltin⟩ := unhearing_values.1 hv
    cases hassign : m.scopes.resolve name i with
    | none => simp only [ScopeTree.assign?, hassign]; exact .none
    | some j =>
      simp only [ScopeTree.assign?, hassign]
      exact .some ⟨rfl, hunread, hhome.define (fun b hb => absurd hb (hbuiltin b)) j, hcode⟩
  define := by
    rintro m _ i v v' ⟨rfl, hunread, hhome, hcode⟩ - hv name
    obtain ⟨rfl, hbuiltin⟩ := unhearing_values.1 hv
    exact ⟨rfl, hunread, hhome.define (fun b hb => absurd hb (hbuiltin b)) i, hcode⟩
  child := by
    rintro m _ i ⟨rfl, hunread, hhome, hcode⟩ -
    exact ⟨rfl, trivial, rfl, hunread, hhome.child i, hcode⟩
  keep := by
    rintro m _ f f' ⟨rfl, hunread, hhome, hcode⟩ hf
    obtain rfl : f' = f := by simpa using hf.eq_placed Correspondence.namingNoBuiltin_places
    have hfunction : ∀ b, (m.keep f').1 ≠ .builtin b := by
      intro b hb
      cases hb
    refine ⟨⟨rfl, hunread, hhome, fun g hg => ?_⟩, unhearing_values.2 ⟨rfl, hfunction⟩⟩
    rcases Array.mem_push.1 hg with hg | rfl
    · exact hcode g hg
    · exact hf.body
  function := by
    rintro m _ id name ⟨rfl, hunread, hhome, hcode⟩ -
    have hbody : ∀ f : Function, m.functions[id]?.getD (.idle "" []) = f →
        f.body.Corresponds .namingNoBuiltin f.body := by
      rintro f rfl
      cases hf : m.functions[id]? with
      | none =>
        refine ⟨trivial, rfl, fun b hb => ?_⟩
        cases hb
      | some f => exact hcode f (Array.mem_of_getElem? hf)
    exact ⟨rfl, rfl, hbody _ rfl, rfl, trivial⟩
  write := by
    rintro m _ ⟨rfl, hunread, hhome, hcode⟩ text
    exact ⟨rfl, hunread, hhome, hcode⟩
  -- the function that reads is a value that does not come about
  read _ hinput := absurd rfl (hinput .input)
  record := by
    rintro m _ p _ ⟨rfl, hunread, hhome, hcode⟩ ⟨rfl, -⟩ entry -
    exact ⟨rfl, hunread, hhome, hcode⟩

end Simulation

/-! ## Texts -/

/-- Whether the run `r` makes nothing of the input of the machine `m`: it does not ask for any,
    leaves what there is, and is stopped and leaves everything else just as on a machine with any
    other input. -/
structure Run.IgnoresInput {α : Type} (r : Run α) (m : Machine) : Prop where
  asks : ¬ r.AsksInput m
  unread : (r.leaves m).input = m.input ∧ (r.leaves m).inputEnd = m.inputEnd
  alike : ∀ (input : List Char) (inputEnd : InputEnd),
    r.stop? { m with input, inputEnd } = r.stop? m ∧
      r.leaves { m with input, inputEnd } = { r.leaves m with input, inputEnd }

/-- A program that names no builtin function, as `hp` tells, runs alike whatever there is to read,
    and reads nothing. -/
theorem Program.run_unhearing {p : Program} (hp : p.Corresponds .namingNoBuiltin p)
    (limits : Limits) {m : Machine} (hhome : m.scopes.BuiltinsAtHome)
    (hcode : ∀ f ∈ m.functions, f.body.Corresponds .namingNoBuiltin f.body)
    (input : List Char) (inputEnd : InputEnd) :
    let m' : Machine := { m with input, inputEnd }
    m.Unhearing m' ((p.run limits Machine.globals).leaves m)
        ((p.run limits Machine.globals).leaves m') ∧
      (p.run limits Machine.globals).stop? m' = (p.run limits Machine.globals).stop? m := by
  intro m'
  have hrelates : (Simulation.unhearing m m').Relates 0 Simulation.Any
      (p.run limits Machine.globals) (p.run limits Machine.globals) :=
    run_relates Simulation.unhearing_lawful limits trivial hp
  have hbegin : m.Unhearing m' m m' := ⟨rfl, ⟨rfl, rfl⟩, hhome, hcode⟩
  have hend := hrelates hbegin (Nat.zero_le _)
  obtain ⟨hstate, hstop⟩ := hend.leaves fun _ _ => id
  exact ⟨hstate, Stop.eq_of_rel hstop⟩

/-- A text in which `input` is not an identifier, as `h` tells of its tokens, makes nothing of its
    input: no line is asked for or read, and whatever there is to read, the run ends in the same
    way, with the same output and the same scopes. -/
theorem ignoresInput_of_unnamed {source : String}
    (h : ∀ tokens, tokenize source = .ok tokens → ∀ t ∈ tokens, t.is .identifier "input" = false)
    (limits : Limits) (input : List Char) :
    (interpret limits source).IgnoresInput (.fresh input) := by
  have hends (input' : List Char) (inputEnd : InputEnd) :
      let r := interpret limits source
      let m := Machine.fresh input
      let m' : Machine := { m with input := input', inputEnd }
      (r.leaves m).input = input ∧ (r.leaves m).inputEnd = .closed ∧ r.stop? m' = r.stop? m ∧
        r.leaves m' = { r.leaves m with input := input', inputEnd } := by
    cases hread : Program.ofSource limits.nesting source with
    | error refusal =>
      rw [interpret, hread]
      exact ⟨rfl, rfl, rfl, rfl⟩
    | ok r =>
      obtain ⟨tokens, p⟩ := r
      have hnames (t : Token) (ht : t ∈ tokens) (b : Builtin) :
          t.is .identifier b.name = false := by
        cases b
        exact h tokens (Program.ofSource_eq_ok.1 hread).1 t ht
      have hp := Program.namesNoBuiltin_of_ofSource hread hnames
      rw [interpret_of_ofSource hread]
      obtain ⟨hstate, hstop⟩ := Program.run_unhearing hp limits
        (Machine.fresh_builtinsAtHome input) (by simp [Machine.fresh, Machine.bare]) input' inputEnd
      exact ⟨hstate.unread.1, hstate.unread.2, hstop, hstate.same⟩
  refine ⟨fun hasks => ?_, ?_, fun input' inputEnd => ?_⟩
  · -- a run that does not depend on its input is broken off on a closed input too, and it is not
    obtain ⟨-, -, hstop, -⟩ := hends [] .interrupts
    obtain ⟨m', hrun⟩ := Run.stop?_eq_some.1 (hstop.symm.trans hasks)
    have hends := interpret_ensures limits source (Machine.Reachable.fresh input).sound
    rw [hrun] at hends
    cases hends.2 with
    | interrupted hend => cases hend
  · obtain ⟨hinput, hend, -⟩ := hends input .closed
    exact ⟨hinput, hend⟩
  · obtain ⟨-, -, hstop, hleaves⟩ := hends input' inputEnd
    exact ⟨hstop, hleaves⟩

/-- A program that prints the word and does not use it: `print "input";` in front of a line. -/
theorem ignoresInput_of_unnamed_string :
    (∀ tokens, tokenize "print \"input\";" = .ok tokens →
      ∀ t ∈ tokens, t.is .identifier "input" = false) ∧
    (interpret ⟨4, 4, 4⟩ "print \"input\";").IgnoresInput (.fresh ['7', '\n']) := by
  have hnames : ((tokenize "print \"input\";").toOption.all fun tokens =>
      tokens.all fun t => !t.is .identifier "input") = true := by cbv
  have h : ∀ tokens, tokenize "print \"input\";" = .ok tokens →
      ∀ t ∈ tokens, t.is .identifier "input" = false := by
    intro tokens htokens t ht
    rw [htokens] at hnames
    simpa using List.all_eq_true.1 hnames t ht
  exact ⟨h, ignoresInput_of_unnamed h ⟨4, 4, 4⟩ ['7', '\n']⟩

end Scripting
