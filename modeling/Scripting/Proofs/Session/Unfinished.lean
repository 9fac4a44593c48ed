import Scripting.Proofs.Grammar.Concatenation
import Scripting.Proofs.Token.Continuation

set_option autoImplicit false

/-! # Beginnings of programs

Where the lines of a program are cut between two of them, the first part may be no program. It is
then refused at its end, for what is missing there, or it is cut inside a string, where it has an
`unterminatedString`. -/

namespace Scripting

theorem Refusal.BlamesEnd.isAtEnd {f : Fault} (h : (Refusal.fault f).BlamesEnd) :
    f.isAtEnd = true := by
  rcases h with hdeep | ⟨v, t, hfault, hend⟩
  · cases hdeep
  · cases hfault
    exact hend

/-- A beginning `a` of a program that is none is refused for what is missing at its end, for a
    string that goes on in the next line, or for want of room for its nesting. -/
theorem Program.refusal_of_prefix {depth : Nat} {a b : String} {e : Refusal}
    {r : List Token × Program} (ha : ofSource depth a = .error e)
    (hboth : ofSource depth (a ++ "\n" ++ b) = .ok r) :
    e = .tooDeep ∨ ∃ f, e = .fault f ∧ (f.cause = .unterminatedString ∨ f.isAtEnd = true) := by
  obtain ⟨cs, q⟩ := r
  obtain ⟨hcs, hq⟩ := ofSource_eq_ok.1 hboth
  rcases exists_tokens_of_prefix hcs with ⟨f, hf, hstring⟩ | ⟨found, last, rest, p, has, hlast, rfl⟩
  · rcases ofSource_eq_error.1 ha with ⟨f', hf', rfl⟩ | ⟨tokens, htokens, -⟩
    · cases hf.symm.trans hf'
      exact .inr ⟨f, rfl, .inl hstring⟩
    · cases hf.symm.trans htokens
  · rcases ofSource_eq_error.1 ha with ⟨f', hf', -⟩ | ⟨tokens, htokens, he⟩
    · cases has.symm.trans hf'
    cases has.symm.trans htokens
    have hend : Cursor.ofTokens? [Token.endAt p] = some ⟨[], Token.endAt p, [], 0, 0⟩ := rfl
    obtain ⟨c, hc⟩ := Cursor.exists_ofTokens?_append hend rest
    rcases exists_error_of_append hlast hc he with hblames | ⟨e', he'⟩
    · cases e with
      | tooDeep => exact .inl rfl
      | fault f => exact .inr ⟨f, rfl, .inr hblames.isAtEnd⟩
    · cases hq.symm.trans he'

end Scripting
