import Scripting.Proofs.Evaluation.Keeping
import Scripting.Proofs.Session.Layout

set_option autoImplicit false

/-! # Programs that ask for no input

A program that is not broken off on a machine without input asks for none: it does not
`Run.AsksInput`. It then does the same on every machine in the same state, whatever there is to
read, and whatever has been written before: it writes the same text and leaves the same state, and
takes nothing from the input. -/

namespace Scripting

/-! ## Machines without input -/

/-- The machine `m` where every program is broken off that asks for input. -/
def Machine.withoutInput (m : Machine) : Machine :=
  { m with input := [], inputEnd := .interrupts }

/-- Whether the run `r` asks for input on the machine `m`. -/
def Run.AsksInput {α : Type} (r : Run α) (m : Machine) : Prop :=
  r.stop? m.withoutInput = some .interrupted

/-- Whether `m` and `m'` are in the same state: they agree in their `scopes`, and in their
    `functions` but for where the nodes of these are placed. -/
structure Machine.SameState (m m' : Machine) : Prop where
  scopes : m'.scopes = m.scopes
  functions : m'.functions.map Function.unplaced = m.functions.map Function.unplaced

/-- Whether the machine `m₁` differs from the earlier `m` in having written `text`, and has read
    nothing since. -/
structure Machine.Writes (text : String) (m m₁ : Machine) : Prop where
  output : m₁.output = m.output ++ text
  input : m₁.input = m.input
  inputEnd : m₁.inputEnd = m.inputEnd

/-- Whether `r` on `m` and `r'` on `m'` do the same: they write the same text and read nothing,
    leave the same state, and are stopped for the same reason if they are. -/
structure Run.DoAlike {α : Type} (r r' : Run α) (m m' : Machine) : Prop where
  state : (r.leaves m).SameState (r'.leaves m')
  writes : ∃ text, m.Writes text (r.leaves m) ∧ m'.Writes text (r'.leaves m')
  stop : Option.Rel Stop.SameButPlace (r.stop? m) (r'.stop? m')

namespace Machine.SameState

variable {m m' m'' : Machine}

theorem refl (m : Machine) : m.SameState m := ⟨rfl, rfl⟩

theorem symm (h : m.SameState m') : m'.SameState m := ⟨h.scopes.symm, h.functions.symm⟩

theorem trans (h : m.SameState m') (h' : m'.SameState m'') : m.SameState m'' :=
  ⟨h'.scopes.trans h.scopes, h'.functions.trans h.functions⟩

end Machine.SameState

theorem Machine.SameButPlaces.sameState {m m' : Machine} (h : m.SameButPlaces m') :
    m.SameState m' :=
  ⟨h.scopes, h.functions⟩

namespace Machine.Writes

variable {text text' : String} {m m₁ m₂ : Machine}

theorem unique (h : m.Writes text m₁) (h' : m.Writes text' m₁) : text = text' :=
  (String.append_right_inj m.output).1 (h.output.symm.trans h'.output)

theorem trans (h : m.Writes text m₁) (h' : m₁.Writes text' m₂) : m.Writes (text ++ text') m₂ :=
  ⟨by rw [h'.output, h.output, String.append_assoc], h'.input.trans h.input,
    h'.inputEnd.trans h.inputEnd⟩

end Machine.Writes

theorem rel_of_imp {α β : Type} {R R' : α → β → Prop} {o : Option α} {o' : Option β}
    (h : Option.Rel R o o') (himp : ∀ a b, R a b → R' a b) : Option.Rel R' o o' := by
  cases h with
  | none => exact .none
  | some hab => exact .some (himp _ _ hab)

theorem Stop.rel_symm {o o' : Option Stop} (h : Option.Rel Stop.SameButPlace o o') :
    Option.Rel Stop.SameButPlace o' o := by
  cases h with
  | none => exact .none
  | some he => exact .some he.symm

theorem Stop.rel_trans {o o' o'' : Option Stop} (h : Option.Rel Stop.SameButPlace o o')
    (h' : Option.Rel Stop.SameButPlace o' o'') : Option.Rel Stop.SameButPlace o o'' := by
  cases h with
  | none => exact h'
  | some he =>
    cases h' with
    | some he' => exact .some (he.trans he')

theorem Stop.eq_none_of_rel {o : Option Stop} (h : Option.Rel Stop.SameButPlace none o) :
    o = none := by
  cases h
  rfl

theorem Stop.eq_of_rel_interrupted {o : Option Stop}
    (h : Option.Rel Stop.SameButPlace o (some .interrupted)) : o = some .interrupted := by
  cases h with
  | some he =>
    cases he
    rfl

/-- Runs that `EndAlike` leave the same machine, but for places. -/
theorem Run.EndAlike.leaves {α : Type} {r r' : Run α} {m m' : Machine}
    (h : EndAlike (r.run m) (r'.run m')) : (r.leaves m).SameButPlaces (r'.leaves m') ∧
      Option.Rel Stop.SameButPlace (r.stop? m) (r'.stop? m') := by
  unfold Run.leaves Run.stop?
  revert h
  cases r.run m <;> cases r'.run m' <;> intro h
  · exact ⟨h, .none⟩
  · exact h.elim
  · exact h.elim
  · exact ⟨h.2, .some h.1⟩

namespace Run.DoAlike

variable {α : Type} {r r' r'' : Run α} {m m' m'' : Machine}

theorem trans_left (h : r.DoAlike r' m m') (h' : r.DoAlike r'' m m'') :
    r'.DoAlike r'' m' m'' where
  state := h.state.symm.trans h'.state
  writes := by
    obtain ⟨text, hwrites, hwrites'⟩ := h.writes
    obtain ⟨text', hwritten, hwritten'⟩ := h'.writes
    obtain rfl := hwrites.unique hwritten
    exact ⟨text, hwrites', hwritten'⟩
  stop := Stop.rel_trans (Stop.rel_symm h.stop) h'.stop

/-- A run `r''` in the place of `r'` that differs from it in places only. -/
theorem of_endAlike (h : r.DoAlike r' m m') (halike : EndAlike (r'.run m') (r''.run m''))
    (hsame : m'.SameButPlaces m'') : r.DoAlike r'' m m'' := by
  obtain ⟨hleaves, hstop⟩ := halike.leaves
  obtain ⟨text, hwrites, hwrites'⟩ := h.writes
  refine ⟨h.state.trans hleaves.sameState, ⟨text, hwrites, ?_⟩, Stop.rel_trans h.stop hstop⟩
  exact ⟨by rw [hleaves.output, hwrites'.output, hsame.output],
    by rw [hleaves.input, hwrites'.input, hsame.input],
    by rw [hleaves.inputEnd, hwrites'.inputEnd, hsame.inputEnd]⟩

end Run.DoAlike

/-! ## The simulation -/

/-- The machine `m` with what `other` has to read and has written. -/
def Machine.withStreams (m other : Machine) : Machine :=
  { m with input := other.input, inputEnd := other.inputEnd, output := other.output }

/-- Whether `m` and `m'` correspond but for their streams: the first has no input, the second has
    read nothing, and since `before` and `before'` both have written the same. -/
structure Machine.Shadows (k : Correspondence) (m m' before before' : Machine) : Prop where
  state : m.Corresponds k (m'.withStreams m)
  input : m.input = []
  inputEnd : m.inputEnd = .interrupts
  unread : m'.input = before'.input ∧ m'.inputEnd = before'.inputEnd
  written : ∃ text, m.output = before.output ++ text ∧ m'.output = before'.output ++ text

/-- A run without input, and the run that does the same as long as the first is not broken off. -/
def Simulation.shadow (k : Correspondence) (before before' : Machine) : Simulation where
  toCorrespondence := k
  state m m' := m.Shadows k m' before before'
  stop := Stop.Corresponds k
  lost e := e = .interrupted
  number := id
  known _ _ := True
  visible _ := True
  own _ := True

namespace Simulation

variable {k : Correspondence} {before before' : Machine}

theorem shadow_values {n : Nat} {v v' : Value} :
    (shadow k before before').Values n v v' ↔ (likeness k).Values n v v' :=
  ⟨fun h => ⟨h.known, h.eq⟩, fun h => ⟨h.known, h.eq⟩⟩

/-- A run without input does what the other does. -/
theorem shadow_lawful (hliteral : ∀ {v v' : Value}, k.literal v v' → v' = v) :
    (shadow k before before').Lawful := by
  have hlike : (likeness k).Lawful := likeness_lawful hliteral
  refine
    { known_mono := fun _ _ => trivial
      known_of_type := fun _ _ => trivial
      number_inj := fun _ _ h => h
      own_visible := fun _ => trivial
      literal := fun h n => shadow_values.2 (hlike.literal h n)
      fault := hlike.fault
      stop := hlike.stop
      get := ?get
      assign := ?assign
      define := fun h hi hv name =>
        ⟨hlike.define h.state hi (shadow_values.1 hv) name, h.input, h.inputEnd, h.unread,
          h.written⟩
      child := ?child
      keep := ?keep
      function := ?function
      write := ?write
      read := fun h _ => .inr ⟨h.input, h.inputEnd, rfl⟩
      record := fun h hp entry hentry =>
        ⟨hlike.record h.state hp entry hentry, h.input, h.inputEnd, h.unread, h.written⟩ }
  case get =>
    intro m m' i name p p' h hi hp
    have hget : Option.Rel ((likeness k).Values m.functions.size) (m.scopes.get? i name)
        ((m'.withStreams m).scopes.get? i name) := hlike.get h.state hi hp
    exact rel_of_imp hget fun _ _ => shadow_values.2
  case assign =>
    intro m m' i v v' h hi hv name
    have hassign := hlike.assign (i := i) h.state trivial (shadow_values.1 hv) name
    exact rel_of_imp hassign fun _ _ hstate =>
      ⟨hstate, h.input, h.inputEnd, h.unread, h.written⟩
  case child =>
    intro m m' i h hi
    obtain ⟨hsize, hown, hstate⟩ := hlike.child h.state hi
    exact ⟨hsize, hown, hstate, h.input, h.inputEnd, h.unread, h.written⟩
  case keep =>
    intro m m' f f' h hf
    obtain ⟨hstate, hvalue⟩ :=
      hlike.keep h.state ⟨hf.name, hf.parameters, hf.body, hf.closure, trivial⟩
    exact ⟨⟨hstate, h.input, h.inputEnd, h.unread, h.written⟩, shadow_values.2 hvalue⟩
  case function =>
    intro m m' id name h (hid : (likeness k).known m.functions.size (.function id name))
    obtain ⟨hname, hparameters, hbody, hclosure, -⟩ := hlike.function h.state hid
    exact ⟨hname, hparameters, hbody, hclosure, trivial⟩
  case write =>
    intro m m' h text
    obtain ⟨written, hout, hout'⟩ := h.written
    exact ⟨hlike.write h.state text, h.input, h.inputEnd, h.unread, written ++ text,
      by rw [hout, String.append_assoc], by rw [hout', String.append_assoc]⟩

end Simulation

/-! ## Programs -/

theorem Program.unplaced_unplaced (p : Program) : p.unplaced.unplaced = p.unplaced := by
  have hunplaced (s : Stmt) : s.unplaced.unplaced = s.unplaced := by
    rw [← s.placed_unknown, s.unplaced_placed, s.placed_unknown]
  simp [unplaced, hunplaced]

theorem Machine.sameButPlaces_unplaced (m : Machine) : m.unplaced.SameButPlaces m :=
  (Machine.SameButPlaces.corresponds_unplaced
    (⟨rfl, rfl, rfl, rfl, rfl⟩ : m.SameButPlaces m)).sameButPlaces.symm

theorem Machine.SameState.shadows_unplaced {m m' : Machine} (h : m.SameState m') :
    m.withoutInput.Shadows (.placing fun _ => .unknown) m'.unplaced m.withoutInput m'.unplaced where
  state := by
    have hsame : (m'.withStreams m).SameButPlaces m :=
      ⟨h.scopes.symm, h.functions.symm, rfl, rfl, rfl⟩
    have hstate := hsame.corresponds_unplaced
    exact ⟨hstate.scopes, hstate.size, hstate.functions, rfl, rfl, rfl⟩
  input := rfl
  inputEnd := rfl
  unread := ⟨rfl, rfl⟩
  written := ⟨"", by simp, by simp⟩

theorem Machine.Shadows.sameState {f : Placing} {before before' m m' : Machine}
    (h : m.Shadows (.placing f) m' before before') : m.SameState m' :=
  have hsame := h.state.sameButPlaces
  ⟨hsame.scopes, hsame.functions⟩

section Programs

variable {limits : Limits} {p q : Program} {m m' : Machine}

/-- The program `p` that asks for no input does without input what it does `unplaced`. -/
theorem Program.run_withoutInput_unplaced (hm : m.SameState m')
    (hasks : ¬ (p.run limits Machine.globals).AsksInput m) :
    (p.run limits Machine.globals).DoAlike (p.unplaced.run limits Machine.globals) m.withoutInput
      m'.unplaced := by
  have hlawful : (Simulation.shadow (.placing fun _ => .unknown) m.withoutInput
      m'.unplaced).Lawful := Simulation.shadow_lawful id
  have hrelates : (Simulation.shadow (.placing fun _ => .unknown) m.withoutInput
      m'.unplaced).Relates 0 Simulation.Any (p.run limits Machine.globals)
        (p.unplaced.run limits Machine.globals) :=
    run_relates hlawful limits trivial p.corresponds_unplaced
  have hend := hrelates hm.shadows_unplaced (Nat.zero_le _)
  obtain ⟨hstate, hstop⟩ := hend.leaves fun e he hlost => hasks (he.trans (congrArg some hlost))
  obtain ⟨text, hout, hout'⟩ := hstate.written
  exact ⟨hstate.sameState, ⟨text, ⟨hout, hstate.input, hstate.inputEnd⟩,
    ⟨hout', hstate.unread.1, hstate.unread.2⟩⟩, rel_of_imp hstop fun _ _ he => he.sameButPlace⟩

/-- Programs that are equal when `unplaced` do the same on machines in the `SameState`, if they ask
    for no input. -/
theorem Program.run_doAlike (hpq : p.unplaced = q.unplaced) (hm : m.SameState m')
    (hasks : ¬ (p.run limits Machine.globals).AsksInput m) :
    (p.run limits Machine.globals).DoAlike (q.run limits Machine.globals) m m' := by
  have hplain {r : Program} {m₁ : Machine} (hr : r.unplaced = p.unplaced) (h : m.SameState m₁) :
      (p.run limits Machine.globals).DoAlike (r.run limits Machine.globals) m.withoutInput m₁ := by
    have hsame : m₁.unplaced.SameButPlaces m₁ := m₁.sameButPlaces_unplaced
    have halike := run_endAlike (p.unplaced_unplaced.trans hr.symm) limits hsame
    exact (run_withoutInput_unplaced h hasks).of_endAlike halike hsame
  exact (hplain rfl (.refl m)).trans_left (hplain hpq.symm hm)

/-- Whether a program asks for input, `AsksInput`, does not depend on positions and streams. -/
theorem Program.asksInput_of_sameState (hpq : p.unplaced = q.unplaced) (hm : m.SameState m')
    (h : (q.run limits Machine.globals).AsksInput m') :
    (p.run limits Machine.globals).AsksInput m := by
  by_contra hasks
  have halike : (p.run limits Machine.globals).DoAlike (q.run limits Machine.globals)
      m.withoutInput m'.withoutInput := run_doAlike hpq ⟨hm.scopes, hm.functions⟩ hasks
  have hstop := halike.stop
  have hbroken : (q.run limits Machine.globals).stop? m'.withoutInput = some .interrupted := h
  rw [hbroken] at hstop
  exact hasks (Stop.eq_of_rel_interrupted hstop)

/-- A program that asks for no input is not `interrupted`. -/
theorem Program.stop?_ne_interrupted (hasks : ¬ (p.run limits Machine.globals).AsksInput m) :
    (p.run limits Machine.globals).stop? m ≠ some .interrupted := by
  intro hbroken
  have halike : (p.run limits Machine.globals).DoAlike (p.run limits Machine.globals)
      m m.withoutInput := run_doAlike rfl ⟨rfl, rfl⟩ hasks
  have hstop := Stop.rel_symm halike.stop
  rw [hbroken] at hstop
  exact hasks (Stop.eq_of_rel_interrupted hstop)

/-- Whether the program `p` can be run on the machine `m` with no need for input, and raises no
    fault there. -/
structure Program.Quiet (limits : Limits) (p : Program) (m : Machine) : Prop where
  asks : ¬ (p.run limits Machine.globals).AsksInput m
  raises : ∀ f, (p.run limits Machine.globals).stop? m ≠ some (.fault f)

/-- Whether a program is `Quiet`, by running it. -/
def Program.isQuiet (limits : Limits) (p : Program) (m : Machine) : Bool :=
  (p.run limits Machine.globals).stop? m.withoutInput != some .interrupted &&
    match (p.run limits Machine.globals).stop? m with
    | some (.fault _) => false
    | _ => true

theorem Program.isQuiet_iff : p.isQuiet limits m = true ↔ p.Quiet limits m := by
  unfold isQuiet
  constructor
  · intro h
    simp only [Bool.and_eq_true, bne_iff_ne, ne_eq] at h
    exact ⟨h.1, fun f hf => by simp [hf] at h⟩
  · rintro ⟨hasks, hraises⟩
    refine Bool.and_eq_true_iff.2 ⟨bne_iff_ne.2 hasks, ?_⟩
    split
    · rename_i f hf
      exact absurd hf (hraises f)
    · rfl

theorem Program.Quiet.of_sameState (h : q.Quiet limits m') (hpq : p.unplaced = q.unplaced)
    (hm : m.SameState m') : p.Quiet limits m := by
  have hasks : ¬ (p.run limits Machine.globals).AsksInput m := fun hasks =>
    h.asks (asksInput_of_sameState hpq.symm hm.symm hasks)
  refine ⟨hasks, fun f hf => ?_⟩
  have hstop := (run_doAlike hpq hm hasks).stop
  rw [hf] at hstop
  generalize hfault : (q.run limits Machine.globals).stop? m' = stop at hstop
  cases hstop with
  | some he =>
    cases he with
    | fault _ _ _ => exact h.raises _ hfault
    | other _ hother => exact hother _ rfl

end Programs

end Scripting
