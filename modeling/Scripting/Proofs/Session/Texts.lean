import Scripting.Session

set_option autoImplicit false

/-! # Texts and their programs

A text that `interpret` runs is scanned, read and run, in this order, and what goes wrong at one
stage keeps the next from coming about. -/

namespace Scripting

/-! ## Scanning -/

theorem tokenize_eq_ok {source : String} {tokens : List Token} :
    tokenize source = .ok tokens ↔ (scan source).fault = none ∧ (scan source).tokens = tokens := by
  unfold tokenize
  simp only
  split <;> simp_all

theorem tokenize_eq_error {source : String} {f : Fault} :
    tokenize source = .error f ↔ (scan source).fault = some f := by
  unfold tokenize
  simp only
  split <;> simp_all

/-! ## Reading -/

namespace Program

variable {depth : Nat} {source : String}

theorem ofSource_eq_ok {tokens : List Token} {p : Program} :
    ofSource depth source = .ok (tokens, p) ↔
      tokenize source = .ok tokens ∧ ofTokens depth tokens = .ok p := by
  unfold ofSource
  cases tokenize source with
  | error f => simp
  | ok tokens' =>
    cases hp : ofTokens depth tokens' with
    | error e => grind [Except.map]
    | ok p' => grind [Except.map]

theorem ofSource_eq_error {e : Refusal} :
    ofSource depth source = .error e ↔
      (∃ f, tokenize source = .error f ∧ e = .fault f) ∨
        ∃ tokens, tokenize source = .ok tokens ∧ ofTokens depth tokens = .error e := by
  unfold ofSource
  cases tokenize source with
  | error f => simp [eq_comm]
  | ok tokens' =>
    cases hp : ofTokens depth tokens' with
    | error e => grind [Except.map]
    | ok p' => grind [Except.map]

theorem exists_of_isOk_ofSource (h : (ofSource depth source).isOk = true) :
    ∃ tokens p, ofSource depth source = .ok (tokens, p) := by
  cases hread : ofSource depth source with
  | error e => rw [hread] at h; cases h
  | ok r => exact ⟨r.1, r.2, rfl⟩

end Program

/-! ## Running -/

theorem interpret_of_ofSource {limits : Limits} {source : String} {tokens : List Token}
    {p : Program} (h : Program.ofSource limits.nesting source = .ok (tokens, p)) :
    interpret limits source = p.run limits Machine.globals := by
  rw [interpret, h]

/-- Why the run `r` is stopped, if it is. -/
def Run.stop? {α : Type} (r : Run α) (m : Machine) : Option Stop :=
  match r.run m with
  | .ok _ _ => none
  | .error e _ => some e

theorem Run.stop?_eq_some {α : Type} {r : Run α} {m : Machine} {e : Stop} :
    r.stop? m = some e ↔ ∃ m', r.run m = .error e m' := by
  unfold stop?
  cases r.run m <;> simp

theorem Program.run_append (limits : Limits) (scope : Nat) (p q : Program) :
    (p ++ q : Program).run limits scope =
      (do p.run limits scope; q.run limits scope) := by
  induction p with
  | nil => rfl
  | cons s rest ih => simp only [List.cons_append, run, ih, bind_assoc]

end Scripting
