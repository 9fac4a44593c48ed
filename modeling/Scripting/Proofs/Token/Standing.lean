import Mathlib.Data.List.Nodup
import Scripting.Proofs.Session.Texts
import Scripting.Proofs.Text.Places
import Scripting.Token.Scan

set_option autoImplicit false

/-! # Tokens stand where they say

Every token of a source carries the position at which its text stands in the source,
`Token.StandsIn`, and the end of input that of the end. A source that cannot be scanned is at fault
at the character where no item begins. No two tokens of a source stand in the same place. -/

namespace Scripting

/-- Whether the token `t` stands in `source` at its position: its text, or nothing more at an end of
    input. -/
def Token.StandsIn (source : List Char) (t : Token) : Prop :=
  ∃ rest, t.position.Begins source rest ∧
    if t.isEnd then rest = [] else t.lexeme.toList <+: rest

/-- The token that `cut` gives has the text of the item, and is no end of input. -/
theorem Cut.token?_eq_some {cut : Cut} {p : Position} {t : Token} (h : cut.token? p = some t) :
    t.position = p ∧ t.lexeme = String.ofList cut.text ∧ t.isEnd = false := by
  obtain ⟨sort, text, rest⟩ := cut
  cases sort with
  | layout => cases h
  | lineFeed => cases h
  | comment => cases h
  | word =>
    cases h
    refine ⟨rfl, rfl, ?_⟩
    simp only [Token.isEnd]
    split <;> rfl
  | _ => cases h; exact ⟨rfl, rfl, rfl⟩

theorem Cut.token?_standsIn {cut : Cut} {p : Position} {source : List Char} {t : Token}
    (h : p.Begins source (cut.text ++ cut.rest)) (ht : cut.token? p = some t) :
    t.StandsIn source := by
  obtain ⟨rfl, hlexeme, hend⟩ := token?_eq_some ht
  refine ⟨_, h, ?_⟩
  rw [hend, hlexeme, String.toList_ofList]
  exact ⟨cut.rest, rfl⟩

section Scans

variable {done : List Token} {p : Position} {source s : List Char}

/-- What holds of the token of every item where it stands, and of an end of input at the end, `P`,
    holds of all tokens of a scan. -/
theorem scanFrom_forall {P : Token → Prop}
    (hitem : ∀ {cut : Cut} {p : Position} {t : Token}, cutItem? (cut.text ++ cut.rest) = some cut →
      p.Begins source (cut.text ++ cut.rest) → cut.token? p = some t → P t)
    (hend : ∀ {p : Position}, p.Begins source [] → P (Token.endAt p))
    (hp : p.Begins source s) (hdone : ∀ t ∈ done, P t) :
    ∀ t ∈ (scanFrom done p s).tokens, P t := by
  fun_induction scanFrom done p s with
  | case1 done p s cut hcut ih =>
    obtain ⟨happ, -⟩ := cutItem?_splits hcut
    rw [← happ] at hp hcut
    refine ih hp.after fun t ht => ?_
    rcases List.mem_append.1 ht with ht | ht
    · exact hitem hcut hp (by simpa [eq_comm] using ht)
    · exact hdone t ht
  | case2 done p =>
    intro t ht
    simp only [List.mem_reverse, List.mem_cons] at ht
    rcases ht with rfl | ht
    · exact hend hp
    · exact hdone t ht
  | case3 done p c rest => exact fun t ht => hdone t (by simpa using ht)

/-- A fault is at a character of the source where it says. -/
theorem exists_begins_of_scanFrom (hp : p.Begins source s) {f : Fault}
    (h : (scanFrom done p s).fault = some f) :
    ∃ c rest q, f = strayCharacter c q ∧ q.Begins source (c :: rest) := by
  fun_induction scanFrom done p s with
  | case1 done p s cut hcut ih =>
    obtain ⟨happ, -⟩ := cutItem?_splits hcut
    rw [← happ] at hp
    exact ih hp.after h
  | case2 => cases h
  | case3 done p c rest => exact ⟨c, rest, p, (Option.some.inj h).symm, hp⟩

/-- Without a fault the last token that `scanFrom` finds is an end of input. -/
theorem scanFrom_closes (h : (scanFrom done p s).fault = none) :
    ∃ found q, (scanFrom done p s).tokens = found ++ [Token.endAt q] := by
  fun_induction scanFrom done p s with
  | case1 done p s cut _ ih => exact ih h
  | case2 done p => exact ⟨done.reverse, p, by simp⟩
  | case3 => cases h

/-- No token of `done`, which stands further back, stands here, as less of the source is left. -/
theorem Position.Begins.notMem_of_behind (hp : p.Begins source s)
    (hbehind : ∀ t ∈ done, ∃ rest, t.position.Begins source rest ∧ s.length < rest.length) :
    p ∉ done.map Token.position := by
  intro hmem
  obtain ⟨t, ht, rfl⟩ := List.mem_map.1 hmem
  obtain ⟨rest, hrest, hlength⟩ := hbehind t ht
  rw [hrest.unique hp] at hlength
  exact Nat.lt_irrefl _ hlength

/-- The tokens that `scanFrom` finds all stand in places of their own. -/
theorem scanFrom_positions (hp : p.Begins source s)
    (hbehind : ∀ t ∈ done, ∃ rest, t.position.Begins source rest ∧ s.length < rest.length)
    (hdone : (done.map Token.position).Nodup) :
    ((scanFrom done p s).tokens.map Token.position).Nodup := by
  fun_induction scanFrom done p s with
  | case1 done p s cut hcut ih =>
    obtain ⟨happ, -⟩ := cutItem?_splits hcut
    have hless := cutItem?_length hcut
    have hafter : (p.after cut.text).Begins source cut.rest := by
      rw [← happ] at hp
      exact hp.after
    refine ih hafter ?_ ?_
    · intro t ht
      rcases List.mem_append.1 ht with ht | ht
      · obtain ⟨rfl, -⟩ := Cut.token?_eq_some (by simpa [eq_comm] using ht)
        exact ⟨s, hp, hless⟩
      · obtain ⟨rest, hrest, hlength⟩ := hbehind t ht
        exact ⟨rest, hrest, hless.trans hlength⟩
    · cases htoken : cut.token? p with
      | none => simpa using hdone
      | some t =>
        obtain ⟨rfl, -⟩ := Cut.token?_eq_some htoken
        exact List.nodup_cons.2 ⟨hp.notMem_of_behind hbehind, hdone⟩
  | case2 done p =>
    rw [List.map_reverse, List.nodup_reverse, List.map_cons]
    exact List.nodup_cons.2 ⟨hp.notMem_of_behind hbehind, hdone⟩
  | case3 done p c rest =>
    rw [List.map_reverse, List.nodup_reverse]
    exact hdone

end Scans

section Texts

variable {source : String} {tokens : List Token}

theorem tokenize_standsIn (h : tokenize source = .ok tokens) :
    ∀ t ∈ tokens, t.StandsIn source.toList := by
  obtain ⟨-, rfl⟩ := tokenize_eq_ok.1 h
  exact scanFrom_forall (fun _ => Cut.token?_standsIn) (fun hp => ⟨[], hp, rfl⟩)
    (Position.start_begins _) (by simp)

theorem tokenize_closes (h : tokenize source = .ok tokens) :
    ∃ found q, tokens = found ++ [Token.endAt q] := by
  obtain ⟨hfault, rfl⟩ := tokenize_eq_ok.1 h
  exact scanFrom_closes hfault

theorem tokenize_positions (h : tokenize source = .ok tokens) :
    (tokens.map Token.position).Nodup := by
  obtain ⟨-, rfl⟩ := tokenize_eq_ok.1 h
  exact scanFrom_positions (Position.start_begins _) (by simp) List.nodup_nil

theorem exists_begins_of_tokenize {f : Fault} (h : tokenize source = .error f) :
    ∃ c rest q, f = strayCharacter c q ∧ q.Begins source.toList (c :: rest) :=
  exists_begins_of_scanFrom (Position.start_begins _) (tokenize_eq_error.1 h)

end Texts

end Scripting
