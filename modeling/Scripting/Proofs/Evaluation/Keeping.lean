import Scripting.Proofs.Evaluation.Lockstep
import Scripting.Proofs.Session.Texts

set_option autoImplicit false

/-! # What a run keeps

A run set `beside` itself is in lockstep with itself. So what every step keeps of a machine is kept
by a whole run, however it ends: it is enough to look at the steps that change scopes or functions,
and streams may be left out if what is `kept` does not depend on them. -/

namespace Scripting

/-- The machine that the run `r` leaves behind, however it ends. -/
def Run.leaves {α : Type} (r : Run α) (m : Machine) : Machine :=
  match r.run m with
  | .ok _ m' => m'
  | .error _ m' => m'

/-- Runs that ended correspondingly, unless the first was `lost`. -/
theorem Simulation.Ends.leaves {k : Simulation} {n : Nat} {α α' : Type} {Q : Nat → α → α' → Prop}
    {r : Run α} {r' : Run α'} {m m' : Machine} (h : k.Ends n Q (r.run m) (r'.run m'))
    (hkept : ∀ e, r.stop? m = some e → ¬ k.lost e) :
    k.state (r.leaves m) (r'.leaves m') ∧ Option.Rel k.stop (r.stop? m) (r'.stop? m') := by
  unfold Run.leaves
  unfold Run.stop? at hkept ⊢
  revert h hkept
  cases r.run m <;> cases r'.run m' <;> intro h hkept
  · exact ⟨h.1, .none⟩
  · exact h.elim
  · exact absurd h (hkept _ rfl)
  · obtain ⟨hstate, hstop⟩ := h.resolve_left (hkept _ rfl)
    exact ⟨hstate, .some hstop⟩

/-- Runs that are stopped for the same reason, if they are. -/
theorem Stop.eq_of_rel {o o' : Option Stop} (h : Option.Rel (fun e e' => e' = e) o o') :
    o' = o := by
  cases h with
  | none => rfl
  | some he => rw [he]

/-- What a run is to keep of a machine, and what is known meanwhile: which functions a value may
    stand for when so many are kept, in which scopes names are looked up, and in which ones they are
    bound. -/
structure Keeping extends Correspondence where
  kept : Machine → Prop
  known : Nat → Nat → Prop
  visible : Nat → Prop
  own : Nat → Prop

namespace Keeping

variable {k : Keeping}

/-- The run beside itself, with what `k` tells of its machine. -/
def beside (k : Keeping) : Simulation where
  toCorrespondence := k.toCorrespondence
  state m m' := m' = m ∧ k.kept m
  stop e e' := e' = e
  number := id
  known n v := v.Within (k.known n)
  visible := k.visible
  own := k.own

/-- What the steps of a run have to keep. -/
structure Lawful (k : Keeping) : Prop where
  places : k.toCorrespondence.Places id
  known_mono : ∀ {n n' id : Nat}, n ≤ n' → k.known n id → k.known n' id
  own_visible : ∀ {i : Nat}, k.own i → k.visible i
  literal : ∀ {v v' : Value}, k.literal v v' → ∀ n, v.Within (k.known n)
  get : ∀ {m : Machine} {i : Nat} {name : String} {v : Value}, k.kept m → k.visible i →
    m.scopes.get? i name = some v → v.Within (k.known m.functions.size)
  assign : ∀ {m : Machine} {i : Nat} {name : String} {v : Value} {t : ScopeTree}, k.kept m →
    k.visible i → v.Within (k.known m.functions.size) → m.scopes.assign? i name v = some t →
    k.kept { m with scopes := t }
  define : ∀ {m : Machine} {i : Nat} {v : Value}, k.kept m → k.own i →
    v.Within (k.known m.functions.size) → ∀ name,
    k.kept { m with scopes := m.scopes.define i name v }
  child : ∀ {m : Machine} {i : Nat}, k.kept m → k.visible i →
    k.own m.scopes.size ∧ k.kept { m with scopes := m.scopes.child i }
  keep : ∀ {m : Machine} {f : Function}, k.kept m → f.body.Corresponds k.toCorrespondence f.body →
    k.visible f.closure →
    k.kept (m.keep f).2 ∧ k.known (m.functions.size + 1) m.functions.size
  function : ∀ {m : Machine} {id : Nat} {f : Function}, k.kept m → k.known m.functions.size id →
    m.functions[id]?.getD (.idle "" []) = f →
    f.body.Corresponds k.toCorrespondence f.body ∧ k.visible f.closure
  streams : ∀ {m m' : Machine}, k.kept m → m'.scopes = m.scopes → m'.functions = m.functions →
    k.kept m'

/-- A value corresponds to itself, if the function that it stands for is `known`. -/
theorem values_self {n : Nat} {v : Value} (h : v.Within (k.known n)) : k.beside.Values n v v :=
  ⟨h, v.renumbered_id.symm⟩

/-- What the steps keep makes a run `beside` itself a simulation. -/
theorem Lawful.beside (hk : k.Lawful) : k.beside.Lawful where
  known_mono hn hv := hv.mono fun _ => hk.known_mono hn
  known_of_type h _ := (Value.plain_of_type h).within
  number_inj _ _ h := h
  own_visible := hk.own_visible
  literal h n := ⟨hk.literal h n, by rw [hk.places.literal h]; exact (Value.renumbered_id _).symm⟩
  fault _ hp := by rw [hk.places.point hp]; rfl
  stop _ := rfl
  get := by
    rintro _ m i name p p' ⟨rfl, hm⟩ hi -
    cases hget : m.scopes.get? i name with
    | none => exact .none
    | some v => exact .some (values_self (hk.get hm hi hget))
  assign := by
    rintro _ m i v _ ⟨rfl, hm⟩ hi ⟨hv, rfl⟩ name
    have hsame : v.renumbered k.beside.number = v := v.renumbered_id
    rw [hsame]
    cases hassign : m.scopes.assign? i name v with
    | none => exact .none
    | some t => exact .some ⟨rfl, hk.assign hm hi hv hassign⟩
  define := by
    rintro _ m i v _ ⟨rfl, hm⟩ hi ⟨hv, rfl⟩ name
    have hsame : v.renumbered k.beside.number = v := v.renumbered_id
    rw [hsame]
    exact ⟨rfl, hk.define hm hi hv name⟩
  child := by
    rintro _ m i ⟨rfl, hm⟩ hi
    obtain ⟨hown, hchild⟩ := hk.child hm hi
    exact ⟨rfl, hown, rfl, hchild⟩
  keep := by
    rintro _ m f f' ⟨rfl, hm⟩ hf
    obtain rfl : f' = f := by simpa using hf.eq_placed hk.places
    obtain ⟨hkeep, hknown⟩ := hk.keep hm hf.body hf.visible
    exact ⟨⟨rfl, hkeep⟩, values_self hknown⟩
  function := by
    rintro _ m id name ⟨rfl, hm⟩ hid
    obtain ⟨hbody, hvisible⟩ := hk.function hm hid rfl
    exact ⟨rfl, rfl, hbody, rfl, hvisible⟩
  write := by rintro _ m ⟨rfl, hm⟩ text; exact ⟨rfl, hk.streams hm rfl rfl⟩
  read := by
    rintro _ m ⟨rfl, hm⟩ -
    exact .inl ⟨rfl, rfl, fun _ => ⟨rfl, hk.streams hm rfl rfl⟩⟩
  record := by
    rintro _ m p p' ⟨rfl, hm⟩ hp entry -
    obtain rfl := hk.places.point hp
    exact ⟨rfl, hk.streams hm rfl rfl⟩

/-- A run that is in lockstep with itself keeps what is `kept`. -/
theorem kept_of_relates {α : Type} {n : Nat} {Q : Nat → α → α → Prop} {r : Run α} {m : Machine}
    (h : k.beside.Relates n Q r r) (hn : n ≤ m.functions.size) (hm : k.kept m) :
    k.kept (r.leaves m) := by
  obtain ⟨⟨-, hleft⟩, -⟩ := (h ⟨rfl, hm⟩ hn).leaves fun _ _ => id
  exact hleft

/-- A program, each part of which corresponds to itself, keeps what its steps keep. -/
theorem kept_of_program (hk : k.Lawful) {p : Program} (hp : p.Corresponds k.toCorrespondence p)
    (limits : Limits) {scope : Nat} (hscope : k.own scope) {m : Machine} (hm : k.kept m) :
    k.kept ((p.run limits scope).leaves m) := by
  have hrun : k.beside.Relates 0 Simulation.Any (p.run limits scope) (p.run limits scope) :=
    Program.run_relates hk.beside limits hscope hp
  exact kept_of_relates hrun (Nat.zero_le _) hm

end Keeping

end Scripting
