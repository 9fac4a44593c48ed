import Mathlib
import Scripting.Proofs.CommandLine.Asking
import Scripting.Proofs.Grammar.Progress
import Scripting.Proofs.Session.Exhaustion
import Scripting.Proofs.Session.Unfinished

set_option autoImplicit false

/-! # Texts that are refused for good

A text that departs from the grammar before its end, or has a stray character, is `RefusedForGood`,
whatever stands in the lines behind it. So a session that drops the lines gathered for such a fault
drops nothing that further lines could have made a program of. The refusal behind further lines may
be another one: what stands on the left side of an assignment is judged only when the right side has
been read, and that may go on in them. -/

namespace Scripting

/-! ## Refusals behind further tokens -/

namespace Program

variable {depth : Nat} {as rest : List Token} {last : Token} {c : Cursor} {f : Fault}

/-- Tokens that `ofTokens` refuses for a token before their end are refused with whatever stands in
    the place of the end, and with whatever `room` for their nesting. -/
theorem exists_error_of_append_of_fault (hlast : last.isEnd = true)
    (hrest : Cursor.ofTokens? rest = some c)
    (hread : ofTokens depth (as ++ [last]) = .error (.fault f)) (hend : f.isAtEnd = false)
    (room : Nat) : ∃ e, ofTokens room (as ++ rest) = .error e := by
  have hwider : ∀ room ≥ depth, ∃ e, ofTokens room (as ++ rest) = .error e := by
    intro room hle
    have hread' := (ofTokens_of_le hle (by simp [hread])).trans hread
    rcases exists_error_of_append hlast hrest hread' with hblames | he
    · simp [hblames.isAtEnd] at hend
    · exact he
  rcases Nat.le_total depth room with hle | hle
  · exact hwider room hle
  · -- with less room there is no program either, as it would be one with more
    cases hmore : ofTokens room (as ++ rest) with
    | error e => exact ⟨e, rfl⟩
    | ok p =>
      obtain ⟨e, he⟩ := hwider depth (Nat.le_refl _)
      rw [ofTokens_of_le hle (by simp [hmore]), hmore] at he
      cases he

/-- What `ofTokens` refuses tokens for: a departure from the grammar, or more levels of nesting than
    there is `room` for, which so many tokens do not have. -/
theorem refusal_cases {room : Nat} {tokens : List Token} {e : Refusal}
    (h : ofTokens room tokens = .error e) :
    (∃ f v found, e = .fault f ∧ f.cause = .violation v found) ∨
      e = .tooDeep ∧ room < tokens.length := by
  cases e with
  | tooDeep => exact .inr ⟨rfl, lt_length_of_tooDeep h⟩
  | fault f =>
    obtain ⟨v, found, hcause⟩ := cause_of_ofTokens h
    exact .inl ⟨f, v, found, rfl, hcause⟩

end Program

/-- The text `a` with a stray character has it whatever stands in the lines behind it. -/
theorem tokenize_append_lineFeed_of_fault {a : String} {f : Fault} (h : tokenize a = .error f)
    (hstray : f.cause ≠ .unterminatedString) (b : String) :
    tokenize (a ++ "\n" ++ b) = .error f := by
  have hscan := tokenize_eq_error.1 h
  have htext : (a ++ "\n" ++ b).toList = a.toList ++ '\n' :: b.toList := by simp
  rw [tokenize_eq_error, scan, htext]
  exact (congrArg Scan.fault (scanFrom_append_lineFeed_of_fault hscan hstray b.toList)).trans hscan

/-! ## Texts behind which nothing helps -/

namespace CommandLine

/-- The lines `gathered`, and `further` ones behind them. -/
theorem sourceOf_append {further gathered : List String} (hfurther : further ≠ [])
    (hgathered : gathered ≠ []) :
    sourceOf (further ++ gathered) = sourceOf gathered ++ "\n" ++ sourceOf further := by
  unfold sourceOf
  rw [List.reverse_append, String.intercalate_append_of_ne_nil (by simpa using hgathered)
    (by simpa using hfurther)]

/-- Whether the text `source` is refused for good: no text in the lines behind it makes a program of
    both. -/
structure RefusedForGood (depth : Nat) (source : String) (f : Fault) : Prop where
  /-- A departure from the grammar before the end is followed by one, or by a nesting for which
      there is no room. -/
  departs : ∀ v found, f.cause = .violation v found → f.isAtEnd = false →
    ∀ more tokens, tokenize (source ++ "\n" ++ more) = .ok tokens → ∀ room,
    ∃ e, Program.ofSource room (source ++ "\n" ++ more) = .error e ∧
      ((∃ f' v' found', e = .fault f' ∧ f'.cause = .violation v' found') ∨
        e = .tooDeep ∧ room < tokens.length)
  /-- A stray character is reported whatever follows. -/
  strays : ∀ text, f.cause = .invalidCharacter text → ∀ more room,
    Program.ofSource room (source ++ "\n" ++ more) = .error (.fault f)
  /-- A session drops the text, and with no further lines would it have become a program. -/
  dropped : f.isAtEnd = false → f.cause ≠ .unterminatedString →
    ∀ limits gathered c, limits.nesting = depth → gathered ≠ [] → sourceOf gathered = source →
    takeTyped limits gathered c = .next ⟨reportTyped c source f, []⟩ ∧
      ∀ further r, Program.ofSource limits.nesting (sourceOf (further ++ gathered)) ≠ .ok r

/-- Behind a `source` that is refused for a stray character, or for what stands before its end, no
    further lines help. -/
theorem refusedForGood_of_fault {depth : Nat} {source : String} {f : Fault}
    (h : Program.ofSource depth source = .error (.fault f)) : RefusedForGood depth source f := by
  have departs : ∀ v found, f.cause = .violation v found → f.isAtEnd = false →
      ∀ more tokens, tokenize (source ++ "\n" ++ more) = .ok tokens → ∀ room,
      ∃ e, Program.ofSource room (source ++ "\n" ++ more) = .error e ∧
        ((∃ f' v' found', e = .fault f' ∧ f'.cause = .violation v' found') ∨
          e = .tooDeep ∧ room < tokens.length) := by
    intro v found hcause hend more tokens htokens room
    have hscanned : ¬ ∃ f', tokenize source = .error f' ∧ f'.cause = .unterminatedString := by
      rintro ⟨f', hf', hstring⟩
      rw [Program.ofSource, hf'] at h
      cases h
      simp [hstring] at hcause
    obtain ⟨as, last, rest, p, has, hlast, rfl⟩ :=
      ( exists_tokens_of_prefix htokens).resolve_left hscanned
    rcases Program.ofSource_eq_error.1 h with ⟨f', hf', -⟩ | ⟨found', hfound, hread⟩
    · cases has.symm.trans hf'
    cases has.symm.trans hfound
    have hrest : Cursor.ofTokens? [Token.endAt p] = some ⟨[], Token.endAt p, [], 0, 0⟩ := rfl
    obtain ⟨c, hc⟩ := Cursor.exists_ofTokens?_append hrest rest
    obtain ⟨e, he⟩ := Program.exists_error_of_append_of_fault hlast hc hread hend room
    exact ⟨e, Program.ofSource_eq_error.2 (.inr ⟨_, htokens, he⟩), Program.refusal_cases he⟩
  have strays : ∀ text, f.cause = .invalidCharacter text → ∀ more room,
      Program.ofSource room (source ++ "\n" ++ more) = .error (.fault f) := by
    intro text hcause more room
    rcases Program.ofSource_eq_error.1 h with ⟨f', hf', he⟩ | ⟨tokens, -, hread⟩
    · cases he
      have hstray : f.cause ≠ .unterminatedString := by simp [hcause]
      rw [Program.ofSource, tokenize_append_lineFeed_of_fault hf' hstray]
    · obtain ⟨v, found, hviolation⟩ := Program.cause_of_ofTokens hread
      cases hcause.symm.trans hviolation
  refine ⟨departs, strays, ?_⟩
  rintro hend hstring limits gathered c rfl hgathered rfl
  refine ⟨by simp [takeTyped, h, hend], fun further r hr => ?_⟩
  cases further with
  | nil => cases h.symm.trans hr
  | cons line further =>
    rw [sourceOf_append (by simp) hgathered] at hr
    rcases Program.cause_of_ofSource h with ⟨s, q, rfl⟩ | ⟨v, found, hcause⟩
    · by_cases hquote : s = '"'
      · exact hstring (by simp [strayCharacter, hquote, Fault.located])
      · have hcause : (strayCharacter s q).cause = .invalidCharacter s.toString := by
          simp [strayCharacter, hquote, Fault.located]
        cases (strays _ hcause _ _).symm.trans hr
    · obtain ⟨htokens, -⟩ := Program.ofSource_eq_ok.1 hr
      obtain ⟨e, he, -⟩ := departs v found hcause hend _ _ htokens limits.nesting
      cases he.symm.trans hr

/-- What is on the left side of `nil = nil` stays no variable, whatever the right side becomes. -/
theorem refusedForGood_of_assignment :
    ∃ f, Program.ofSource 8 "nil = nil" = .error (.fault f) ∧ f.isAtEnd = false ∧
      RefusedForGood 8 "nil = nil" f := by
  have hread : ∃ f, Program.ofSource 8 "nil = nil" = .error (.fault f) ∧ f.isAtEnd = false := by
    refine ⟨?_, ?read, ?inside⟩
    case read => cbv; rfl
    case inside => rfl
  obtain ⟨f, hread, hinside⟩ := hread
  exact ⟨f, hread, hinside, refusedForGood_of_fault hread⟩

end CommandLine

end Scripting
