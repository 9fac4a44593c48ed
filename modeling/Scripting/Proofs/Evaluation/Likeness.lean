import Scripting.Proofs.Evaluation.Lockstep

set_option autoImplicit false

/-! # Runs that differ in their positions

Where literals are the same on both sides, corresponding programs do the same in the same scopes:
they bind the same values, read the same input and write the same output. What may differ is where
the nodes of functions stand and, with it, where a fault points. A fault still points at a position
that belongs to the word that the fault is about, its `Cause.subject?`. -/

namespace Scripting

variable {k : Correspondence}

/-! ## Corresponding machines -/

/-- Whether `f` and `f'` differ at most in their bodies, which correspond. -/
structure Function.Corresponds (k : Correspondence) (f f' : Function) : Prop where
  name : f'.name = f.name
  parameters : f'.parameters = f.parameters
  body : f.body.Corresponds k f'.body
  closure : f'.closure = f.closure

/-- Whether `m` and `m'` differ at most in their `functions`, which correspond, and in the records
    of calls, which tell of positions. -/
structure Machine.Corresponds (k : Correspondence) (m m' : Machine) : Prop where
  scopes : m'.scopes = m.scopes
  size : m'.functions.size = m.functions.size
  functions : ∀ id : Nat, Function.Corresponds k (m.functions[id]?.getD (.idle "" []))
    (m'.functions[id]?.getD (.idle "" []))
  input : m'.input = m.input
  inputEnd : m'.inputEnd = m.inputEnd
  output : m'.output = m.output

/-- Whether two runs are stopped for the same reason, and a fault at positions of the word that it
    is about that correspond by `k`. -/
inductive Stop.Corresponds (k : Correspondence) : Stop → Stop → Prop
  | fault {cause : Cause} {w : Word} {p p' : Position} (hsubject : cause.subject? = some w)
    (hpoint : k.point (some w) p p') :
    Corresponds k (.fault (.located cause p)) (.fault (.located cause p'))
  | other {e : Stop} (h : ∀ f, e ≠ .fault f) : Corresponds k e e

/-- What a fault is about, its `subject?`, and where it stands on both sides. -/
theorem Stop.Corresponds.exists_subject {f : Fault} {e : Stop}
    (h : (Stop.fault f).Corresponds k e) :
    ∃ cause w p p', f = .located cause p ∧ e = .fault (.located cause p') ∧
      cause.subject? = some w ∧ k.point (some w) p p' := by
  generalize hfault : Stop.fault f = e₁ at h
  cases h with
  | fault hsubject hpoint => exact ⟨_, _, _, _, Stop.fault.inj hfault, rfl, hsubject, hpoint⟩
  | other h => exact absurd hfault.symm (h f)

theorem Fault.located_inj {cause cause' : Cause} {p p' : Position}
    (h : located cause p = located cause' p') : cause = cause' ∧ p = p' := by
  obtain ⟨line, column⟩ := p
  obtain ⟨line', column'⟩ := p'
  simp only [located, Position.place, mk.injEq, Place.mk.injEq, Option.some.injEq] at h
  exact ⟨h.1, by rw [h.2.1, h.2.2]⟩

theorem Machine.Corresponds.keep {m m' : Machine} {f f' : Function} (h : m.Corresponds k m')
    (hf : f.Corresponds k f') : (m.keep f).2.Corresponds k (m'.keep f').2 where
  scopes := h.scopes
  size := by simp [Machine.keep, h.size]
  functions id := by
    simp only [Machine.keep, Array.getElem?_push, h.size]
    split
    · exact hf
    · exact h.functions id
  input := h.input
  inputEnd := h.inputEnd
  output := h.output

/-! ## The simulation -/

/-- Runs of code that corresponds by `k`, on machines that do. -/
def Simulation.likeness (k : Correspondence) : Simulation where
  toCorrespondence := k
  state := Machine.Corresponds k
  stop := Stop.Corresponds k
  number := id
  known _ _ := True
  visible _ := True
  own _ := True

namespace Simulation

theorem likeness_values {n : Nat} {v v' : Value} : (likeness k).Values n v v' ↔ v' = v :=
  ⟨fun h => by simpa [likeness] using h.eq, fun h => ⟨trivial, by simp [h, likeness]⟩⟩

/-- Nothing but the positions differs if literals do not, as `hliteral` says. -/
theorem likeness_lawful (hliteral : ∀ {v v' : Value}, k.literal v v' → v' = v) :
    (likeness k).Lawful where
  known_mono _ _ := trivial
  known_of_type _ _ := trivial
  number_inj _ _ h := h
  own_visible _ := trivial
  literal h _ := likeness_values.2 (hliteral h)
  fault hsubject hpoint := .fault hsubject hpoint
  stop h := .other h
  get := by
    intro m m' i name _ _ h _ _
    rw [h.scopes]
    cases m.scopes.get? i name with
    | none => exact .none
    | some v => exact .some (likeness_values.2 rfl)
  assign := by
    intro m m' i v v' h _ hv name
    obtain rfl := likeness_values.1 hv
    rw [h.scopes]
    cases m.scopes.assign? i name v' with
    | none => exact .none
    | some t => exact .some ⟨rfl, h.size, h.functions, h.input, h.inputEnd, h.output⟩
  define := by
    intro m m' i v v' h _ hv name
    obtain rfl := likeness_values.1 hv
    exact ⟨by rw [h.scopes], h.size, h.functions, h.input, h.inputEnd, h.output⟩
  child := by
    intro m m' i h _
    exact ⟨by rw [h.scopes], trivial, by rw [h.scopes], h.size, h.functions, h.input, h.inputEnd,
      h.output⟩
  keep := by
    intro m m' f f' h hf
    have hvalue : (m'.keep f').1 = (m.keep f).1 := by simp [Machine.keep, h.size, hf.name]
    exact ⟨h.keep ⟨hf.name, hf.parameters, hf.body, hf.closure⟩, likeness_values.2 hvalue⟩
  function := by
    intro m m' id _ h _
    obtain ⟨hname, hparameters, hbody, hclosure⟩ := h.functions id
    exact ⟨hname, hparameters, hbody, hclosure, trivial⟩
  write h text := ⟨h.scopes, h.size, h.functions, h.input, h.inputEnd, by rw [h.output]⟩
  read h _ := .inl ⟨h.input, h.inputEnd, fun _ =>
    ⟨h.scopes, h.size, h.functions, rfl, h.inputEnd, h.output⟩⟩
  record h _ _ _ := ⟨h.scopes, h.size, h.functions, h.input, h.inputEnd, h.output⟩

end Simulation

/-! ## Programs -/

namespace Program

section Runs

variable {limits : Limits} {scope : Nat} {p p' : Program} {m m' m₁ : Machine}

/-- The programs `p` and `p'`, which correspond, end alike on the corresponding machines `m` and
    `m'`. -/
theorem run_corresponds (limits : Limits) (scope : Nat)
    (hliteral : ∀ {v v' : Value}, k.literal v v' → v' = v) (hp : p.Corresponds k p')
    (hm : m.Corresponds k m') :
    (Simulation.likeness k).Ends 0 Simulation.Any ((p.run limits scope).run m)
      ((p'.run limits scope).run m') := by
  have hrelates : (Simulation.likeness k).Relates 0 Simulation.Any (p.run limits scope)
      (p'.run limits scope) :=
    run_relates (Simulation.likeness_lawful hliteral) limits trivial hp
  exact hrelates hm (Nat.zero_le _)

theorem exists_run_of_ok (hliteral : ∀ {v v' : Value}, k.literal v v' → v' = v)
    (hp : p.Corresponds k p') (hm : m.Corresponds k m') {a : Unit}
    (h : (p.run limits scope).run m = .ok a m₁) :
    ∃ m₁', (p'.run limits scope).run m' = .ok () m₁' ∧ m₁.Corresponds k m₁' := by
  have hend := run_corresponds limits scope hliteral hp hm
  rw [h] at hend
  cases h' : (p'.run limits scope).run m' with
  | ok a' m₁' => rw [h'] at hend; exact ⟨m₁', rfl, hend.1⟩
  | error e' m₁' => rw [h'] at hend; exact hend.elim

theorem exists_run_of_error (hliteral : ∀ {v v' : Value}, k.literal v v' → v' = v)
    (hp : p.Corresponds k p') (hm : m.Corresponds k m') {e : Stop}
    (h : (p.run limits scope).run m = .error e m₁) :
    ∃ e' m₁', (p'.run limits scope).run m' = .error e' m₁' ∧ m₁.Corresponds k m₁' ∧
      e.Corresponds k e' := by
  have hend := run_corresponds limits scope hliteral hp hm
  rw [h] at hend
  cases h' : (p'.run limits scope).run m' with
  | ok a' m₁' => rw [h'] at hend; exact hend.elim
  | error e' m₁' =>
    rw [h'] at hend
    obtain ⟨hm', he⟩ := hend.resolve_left id
    exact ⟨e', m₁', rfl, hm', he⟩

end Runs

end Program

end Scripting
