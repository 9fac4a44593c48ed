import Scripting.Proofs.CommandLine.Finality
import Scripting.Proofs.CommandLine.Transcript
import Scripting.Proofs.Session.Completion

set_option autoImplicit false

/-! # Lines that a session waits for

A session asks for a further line where the lines gathered are refused at their end. If they assign
to variables only, as `AssignsVariables` tells, there is a line that makes a program of them. If
they do not, no lines make one, and the session waits in vain: the left side of an assignment is
judged only when the right side has been read, so an end of input behind `nil =` is blamed for what
the `nil` is to blame for. -/

namespace Scripting.CommandLine

/-- Whether `line` makes a program of the lines `gathered`: a session that waits for more runs it
    when it is given the line, where there is room for the nesting of the program. -/
def CompletedBy (gathered : List String) (line : List Char) : Prop :=
  '\n' ∉ line ∧ ∃ tokens p, tokenize (sourceOf (String.ofList line :: gathered)) = .ok tokens ∧
    ∀ (limits : Limits) (c : Console) (more : List (List Char)), tokens.length ≤ limits.nesting →
      Text.lines c.machine.input = line :: more →
      Interactive.step limits ⟨c, gathered⟩ =
        runTyped limits (sourceOf (String.ofList line :: gathered)) p (c.ask gathered)

section Waiting

variable {limits : Limits} {gathered : List String} {c : Console} {s s' : Interactive}

/-- Lines that a session keeps after `takeTyped` are refused at their end. -/
theorem refusal_of_takeTyped (h : takeTyped limits gathered c = .next s')
    (hwaits : s'.gathered ≠ []) : s'.gathered = gathered ∧
      ∃ f, Program.ofSource limits.nesting (sourceOf gathered) = .error (.fault f) ∧
        f.isAtEnd = true := by
  cases hread : Program.ofSource limits.nesting (sourceOf gathered) with
  | ok r =>
    rw [takeTyped_of_ok hread, runTyped] at h
    split at h <;> cases h <;> exact absurd rfl hwaits
  | error e =>
    cases e with
    | tooDeep =>
      rw [takeTyped_of_tooDeep hread] at h
      cases h
    | fault f =>
      obtain ⟨c', -, hstep⟩ := takeTyped_of_fault hread c
      rw [hstep] at h
      cases h
      by_cases hend : f.isAtEnd = true
      · exact ⟨by simp [hend], f, rfl, hend⟩
      · simp [hend] at hwaits

/-- A session that asks for a further line has `gathered` lines that are refused at their end. -/
theorem Interactive.refusal_of_step (h : s.step limits = .next s') (hwaits : s'.gathered ≠ []) :
    ∃ f, Program.ofSource limits.nesting (sourceOf s'.gathered) = .error (.fault f) ∧
      f.isAtEnd = true := by
  cases hlines : Text.lines s.console.machine.input with
  | nil =>
    rw [step_of_end hlines] at h
    split at h <;> cases h
  | cons line more =>
    rw [step_of_line hlines] at h
    split at h
    · cases h
    · obtain ⟨hgathered, hrefused⟩ := refusal_of_takeTyped h hwaits
      rwa [hgathered]

theorem isAtEnd_strayCharacter (c : Char) (p : Position) :
    (strayCharacter c p).isAtEnd = false := by
  unfold strayCharacter
  split <;> rfl

/-- The tokens of a text that `ofSource` refuses at its end are `RefusedAtEnd`. -/
theorem exists_refusedAtEnd {depth : Nat} {source : String} {f : Fault}
    (h : Program.ofSource depth source = .error (.fault f)) (hend : f.isAtEnd = true) :
    ∃ ts last, tokenize source = .ok (ts ++ [last]) ∧ Program.RefusedAtEnd depth ts last := by
  rcases Program.ofSource_eq_error.1 h with ⟨f', hf', he⟩ | ⟨tokens, htokens, hread⟩
  · cases he
    obtain ⟨c, q, rfl⟩ := exists_strayCharacter_of_scanFrom (tokenize_eq_error.1 hf')
    simp [isAtEnd_strayCharacter] at hend
  · obtain ⟨ts, last, rfl, hts, hlast, -⟩ := tokenize_append_lineFeed htokens htokens
    exact ⟨ts, last, htokens, hts, hlast, f, hread, hend⟩

/-- One line is enough behind lines that assign to variables only, as `hassigns` says. -/
theorem exists_completedBy {depth : Nat} {ts : List Token} {last : Token}
    (h : Program.RefusedAtEnd depth ts last) (hgathered : gathered ≠ [])
    (htokens : tokenize (sourceOf gathered) = .ok (ts ++ [last]))
    (hassigns : AssignsVariables (Token.words ts)) : ∃ line, CompletedBy gathered line := by
  obtain ⟨line, tokens, hline, hwhole, p, hp⟩ := h.exists_line htokens hassigns
  have hsource : sourceOf (String.ofList line :: gathered) =
      sourceOf gathered ++ "\n" ++ String.ofList line := by
    rw [← List.singleton_append, sourceOf_append (by simp) hgathered]
    rfl
  rw [← hsource] at hwhole
  refine ⟨line, hline, tokens, p, hwhole, fun limits c more hroom hinput => ?_⟩
  rw [Interactive.step_of_line hinput, if_neg (by simp [hgathered])]
  exact takeTyped_of_ok (Program.ofSource_eq_ok.2 ⟨hwhole, hp _ hroom⟩)

/-- A program begins with the lines `gathered` only if they assign to variables only. -/
theorem assignsVariables_of_lines {ts : List Token} {last : Token} {further : List String}
    {room : Nat} {r : List Token × Program} (hgathered : gathered ≠ [])
    (htokens : tokenize (sourceOf gathered) = .ok (ts ++ [last]))
    (hts : ∀ t ∈ ts, t.isEnd = false)
    (h : Program.ofSource room (sourceOf (further ++ gathered)) = .ok r) :
    AssignsVariables (Token.words ts) := by
  obtain ⟨tokens, p⟩ := r
  cases further with
  | nil =>
    obtain ⟨hfound, hread⟩ := Program.ofSource_eq_ok.1 h
    cases htokens.symm.trans hfound
    exact Program.assignsVariables_of_ofTokens hts hread
  | cons line further =>
    rw [sourceOf_append (by simp) hgathered] at h
    exact Program.assignsVariables_of_ofSource htokens hts h

end Waiting

/-- What is refused at its end is incomplete if it assigns to variables only: the tokens `ts` can be
    completed to those of a program, and a session that asks for a further line runs a program when
    it is given a fitting one. Otherwise nothing completes it. -/
theorem completed_iff_assignsVariables (depth : Nat) (ts : List Token) (last : Token)
    (limits : Limits) (s s' : Interactive) :
    (Program.RefusedAtEnd depth ts last →
      (Program.Completable ts last ↔ AssignsVariables (Token.words ts))) ∧
    (s.step limits = .next s' → s'.gathered ≠ [] →
      ∃ typed ending, tokenize (sourceOf s'.gathered) = .ok (typed ++ [ending]) ∧
        (AssignsVariables (Token.words typed) → ∃ line, CompletedBy s'.gathered line) ∧
        (¬ AssignsVariables (Token.words typed) → ∀ further room r,
          Program.ofSource room (sourceOf (further ++ s'.gathered)) ≠ .ok r)) := by
  refine ⟨Program.RefusedAtEnd.completable_iff, fun hstep hwaits => ?_⟩
  obtain ⟨f, hread, hend⟩ := Interactive.refusal_of_step hstep hwaits
  obtain ⟨typed, ending, htokens, hrefused⟩ := exists_refusedAtEnd hread hend
  refine ⟨typed, ending, htokens, exists_completedBy hrefused hwaits htokens, ?_⟩
  exact fun hassigns further room r h =>
    hassigns (assignsVariables_of_lines hwaits htokens hrefused.opens h)

/-- Behind `x =` a value is due, both for its tokens and in a session that is given it. -/
theorem completed_of_variable :
    (Program.RefusedAtEnd 2 [.of .identifier "x" .nil ⟨1, 1⟩, .of .operator "=" .nil ⟨1, 3⟩]
        (.endAt ⟨1, 4⟩) ∧
      Program.Completable [.of .identifier "x" .nil ⟨1, 1⟩, .of .operator "=" .nil ⟨1, 3⟩]
        (.endAt ⟨1, 4⟩)) ∧
    ∃ s', Interactive.step ⟨8, 8, 8⟩ ⟨Console.start false "x =\n".toList .closed, []⟩ = .next s' ∧
      s'.gathered ≠ [] ∧ ∃ line, CompletedBy s'.gathered line := by
  have hrefused : Program.RefusedAtEnd 2
      [.of .identifier "x" .nil ⟨1, 1⟩, .of .operator "=" .nil ⟨1, 3⟩] (.endAt ⟨1, 4⟩) := by
    refine ⟨by simp [Token.isEnd, Token.of], rfl, ?_, ?read, ?atEnd⟩
    case read => cbv; rfl
    case atEnd => rfl
  have hstep : ∃ s', Interactive.step ⟨8, 8, 8⟩
      ⟨Console.start false "x =\n".toList .closed, []⟩ = .next s' ∧ s'.gathered = ["x ="] := by
    refine ⟨?_, ?step, ?gathered⟩
    case step => cbv; rfl
    case gathered => rfl
  have hscanned : ∃ tokens, tokenize (sourceOf ["x ="]) = .ok tokens ∧
      Token.words tokens = [.name "x", .operator "="] := by
    refine ⟨?_, ?scan, ?words⟩
    case scan => cbv; rfl
    case words => rfl
  have hassigns : AssignsVariables [.name "x", .operator "="] :=
    .cons (by simp) (.sign ⟨[], "x", rfl, introduced_nil⟩ (.nil _))
  obtain ⟨s', hstep, hgathered⟩ := hstep
  obtain ⟨tokens, hfound, hwords⟩ := hscanned
  obtain ⟨hcompletable, hsession⟩ := completed_iff_assignsVariables 2 _ _ _ _ s'
  refine ⟨⟨hrefused, (hcompletable hrefused).2 hassigns⟩, s', hstep, by simp [hgathered], ?_⟩
  obtain ⟨typed, ending, htokens, hcompleted, -⟩ := hsession hstep (by simp [hgathered])
  rw [hgathered] at htokens
  cases hfound.symm.trans htokens
  rw [Token.words, List.filterMap_append] at hwords
  exact hcompleted (AssignsBehind.left (hwords ▸ hassigns))

/-- The sign in `nil =` stands behind no variable. -/
theorem not_assignsVariables_of_nil : ¬ AssignsVariables [.literal .nil, .operator "="] := by
  intro hassigns
  obtain ⟨⟨name, hname⟩, -⟩ := targeted_concat.1 (hassigns [.literal .nil] [] rfl)
  cases hname

/-- Nothing completes `nil =`: neither its tokens, which are refused at their end, nor the line, for
    which a session that is given it waits for more. -/
theorem not_always_completed :
    (Program.RefusedAtEnd 2 [.of .keyword "nil" .nil ⟨1, 1⟩, .of .operator "=" .nil ⟨1, 5⟩]
        (.endAt ⟨1, 6⟩) ∧
      ¬ Program.Completable [.of .keyword "nil" .nil ⟨1, 1⟩, .of .operator "=" .nil ⟨1, 5⟩]
        (.endAt ⟨1, 6⟩)) ∧
    ∃ s', Interactive.step ⟨8, 8, 8⟩ ⟨Console.start false "nil =\n".toList .closed, []⟩ = .next s' ∧
      s'.gathered = ["nil ="] ∧
      ∀ further room r, Program.ofSource room (sourceOf (further ++ ["nil ="])) ≠ .ok r := by
  have hrefused : Program.RefusedAtEnd 2
      [.of .keyword "nil" .nil ⟨1, 1⟩, .of .operator "=" .nil ⟨1, 5⟩] (.endAt ⟨1, 6⟩) := by
    refine ⟨by simp [Token.isEnd, Token.of], rfl, ?_, ?read, ?atEnd⟩
    case read => cbv; rfl
    case atEnd => rfl
  have hstep : ∃ s', Interactive.step ⟨8, 8, 8⟩
      ⟨Console.start false "nil =\n".toList .closed, []⟩ = .next s' ∧
      s'.gathered = ["nil ="] := by
    refine ⟨?_, ?step, ?gathered⟩
    case step => cbv; rfl
    case gathered => rfl
  have hscanned : ∃ nilToken sign last,
      tokenize (sourceOf ["nil ="]) = .ok ([nilToken, sign] ++ [last]) ∧
      nilToken.word? = some (.literal .nil) ∧ sign.word? = some (.operator "=") := by
    refine ⟨?_, ?_, ?_, ?scan, ?word, ?sign⟩
    case scan => cbv; rfl
    case word => rfl
    case sign => rfl
  obtain ⟨s', hstep, hgathered⟩ := hstep
  obtain ⟨nilToken, sign, last, htokens, hnil, hsign⟩ := hscanned
  have hopens : ∀ t ∈ [nilToken, sign], t.isEnd = false := by
    simp [Token.isEnd_eq_false hnil, Token.isEnd_eq_false hsign]
  constructor
  · exact ⟨hrefused, fun h => not_assignsVariables_of_nil (hrefused.completable_iff.1 h)⟩
  · refine ⟨s', hstep, hgathered, fun further room r h => not_assignsVariables_of_nil ?_⟩
    have hassigns := assignsVariables_of_lines (by simp) htokens hopens h
    simpa [Token.words, hnil, hsign] using hassigns

end Scripting.CommandLine
