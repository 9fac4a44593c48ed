import Scripting.Proofs.Grammar.Progress
import Scripting.Proofs.Grammar.StatementCompleteness
import Scripting.Proofs.Grammar.StatementInterruption
import Scripting.Proofs.Session.Exhaustion
import Scripting.Proofs.Token.Continuation
import Scripting.Proofs.Token.Spacing

set_option autoImplicit false

/-! # Completing what ends too early

Tokens that are refused at their end can be completed to those of a program, and a text to that of
one, if every sign of assignment stands behind a variable that can be given a value, as
`AssignsVariables` tells; if one does not, no program begins with them. -/

namespace Scripting

/-! ## The words of tokens -/

namespace Token

/-- The words of `tokens`; an end of input has none. -/
def words (tokens : List Token) : List Word :=
  tokens.filterMap word?

theorem words_eq_of_map_word? {tokens : List Token} {ws : List Word}
    (h : tokens.map word? = ws.map some) : words tokens = ws := by
  induction tokens generalizing ws with
  | nil => cases ws <;> simp_all [words]
  | cons t rest ih =>
    cases ws with
    | nil => simp at h
    | cons w ws =>
      obtain ⟨hword, hrest⟩ : t.word? = some w ∧ rest.map word? = ws.map some := by simpa using h
      rw [words, List.filterMap_cons, hword]
      exact congrArg (w :: ·) (ih hrest)

theorem map_word?_eq {tokens : List Token} (h : ∀ t ∈ tokens, t.isEnd = false) :
    tokens.map word? = (words tokens).map some := by
  induction tokens with
  | nil => rfl
  | cons t rest ih =>
    obtain ⟨ht, hrest⟩ := List.forall_mem_cons.1 h
    obtain ⟨w, hw⟩ := Option.ne_none_iff_exists'.1 fun hnone =>
      Bool.false_ne_true (ht.symm.trans (word?_eq_none_iff.1 hnone))
    simp [words, hw, ih hrest]

/-- Whether `tokens` are those of a program: it is read where there is room for as many levels of
    nesting as there are tokens, and so with more room. -/
def MakeProgram (tokens : List Token) : Prop :=
  ∃ p, ∀ room ≥ tokens.length, Program.ofTokens room tokens = .ok p

/-- No more `depth` than for a level behind every token is needed. -/
theorem makeProgram_of_ofTokens {depth : Nat} {tokens : List Token} {p : Program}
    (h : Program.ofTokens depth tokens = .ok p) : MakeProgram tokens := by
  refine ⟨p, fun room hroom => ?_⟩
  have hdeep : Program.ofTokens room tokens ≠ .error .tooDeep := fun hdeep => by
    have hlength := Program.lt_length_of_tooDeep hdeep
    omega
  rcases Nat.le_total depth room with hle | hle
  · rw [Program.ofTokens_of_le hle (by simp [h]), h]
  · rw [← Program.ofTokens_of_le hle hdeep, h]

end Token

/-! ## Words in a text -/

/-- Whether the characters `s` are scanned as a token of the word `w`, where a blank or nothing
    follows. -/
structure Word.Written (w : Word) (s : List Char) : Prop where
  begins : ∃ c rest, s = c :: rest ∧ isLayout c = false
  oneLine : '\n' ∉ s
  scanned : ∀ more : List Char, (∀ c ∈ more.head?, c = ' ') → ∃ sort,
    cutItem? (s ++ more) = some ⟨sort, s, more⟩ ∧
      ∀ p, ∃ t, Cut.token? ⟨sort, s, more⟩ p = some t ∧ t.word? = some w

/-- No keyword is a name of `underscores`. -/
theorem underscores_notMem_keywords (n : Nat) : underscores n ∉ keywords := by
  have hkeywords : ∀ s ∈ keywords, s.toList.head? ≠ some '_' := by decide +kernel
  exact fun hmem => hkeywords _ hmem (by simp [underscores, List.replicate_succ])

/-- The words with which broken off texts are completed, those that `Fills`, can be written. -/
theorem Word.Fills.exists_written {w : Word} (h : w.Fills) : ∃ s, w.Written s := by
  have hdetached {more : List Char} (hmore : ∀ d ∈ more.head?, d = ' ') : Detached more :=
    fun d hd => hmore d hd ▸ List.mem_cons_self
  cases w with
  | literal value =>
    obtain rfl : value = .nil := h
    refine ⟨['n', 'i', 'l'], ⟨'n', _, rfl, rfl⟩, by decide, fun more hmore => ?_⟩
    have hadmits : ItemSort.word.Admits ['n', 'i', 'l'] :=
      ⟨'n', ['i', 'l'], rfl, by simp [Text.isWordPart], rfl⟩
    exact ⟨_, cutItem?_of_admits hadmits rfl (hdetached hmore), fun p => ⟨_, rfl, rfl⟩⟩
  | name text =>
    obtain ⟨n, rfl⟩ := h
    have hall : ∀ c ∈ List.replicate n '_', c = '_' := fun c hc => List.eq_of_mem_replicate hc
    refine ⟨'_' :: List.replicate n '_', ⟨'_', _, rfl, rfl⟩, ?_, fun more hmore => ?_⟩
    · simp
    · have hadmits : ItemSort.word.Admits ('_' :: List.replicate n '_') :=
        ⟨'_', _, rfl, fun c hc => hall c hc ▸ rfl, rfl⟩
      refine ⟨_, cutItem?_of_admits hadmits rfl (hdetached hmore), fun p => ⟨_, rfl, ?_⟩⟩
      have hname : (String.ofList ('_' :: List.replicate n '_')) = underscores n := rfl
      simp [hname, underscores_notMem_keywords, Token.word?, Grammar.literalValue?]
  | mark text =>
    have hmark : ∃ c ∈ punctuationMarks, text = String.ofList [c] := by
      simp only [Fills, List.mem_cons, List.not_mem_nil, or_false] at h
      rcases h with rfl | rfl | rfl | rfl | rfl <;> exact ⟨_, by decide, rfl⟩
    obtain ⟨c, hc, rfl⟩ := hmark
    have hplain : ∀ c ∈ punctuationMarks, isLayout c = false ∧ '\n' ≠ c := by
      simp [punctuationMarks, isLayout]
    obtain ⟨hlayout, hbreak⟩ := hplain c hc
    have hadmits : ItemSort.punctuation.Admits [c] := ⟨c, hc, rfl⟩
    refine ⟨[c], ⟨c, [], rfl, hlayout⟩, by simpa using hbreak, fun more hmore => ?_⟩
    exact ⟨_, cutItem?_of_admits hadmits rfl (hdetached hmore), fun p => ⟨_, rfl, rfl⟩⟩
  | operator _ | keyword _ => exact h.elim

/-- Words that `Fills` make up a line, wherever it begins. -/
theorem exists_line_of_fills {words : List Word} (h : ∀ w ∈ words, w.Fills) (p : Position) :
    ∃ line found q, '\n' ∉ line ∧ (∀ c ∈ line.head?, c = ' ') ∧
      scanFrom [] p line = ⟨found ++ [Token.endAt q], none⟩ ∧
      found.map Token.word? = words.map some := by
  induction words generalizing p with
  | nil =>
    refine ⟨[], [], p, by simp, by simp, ?_, rfl⟩
    rw [scanFrom]
    simp [cutItem?]
  | cons w words ih =>
    obtain ⟨hw, hwords⟩ := List.forall_mem_cons.1 h
    obtain ⟨s, ⟨c, rest, rfl, -⟩, honeLine, hscanned⟩ := hw.exists_written
    obtain ⟨line, found, q, hline, hblank, hscan, hfound⟩ :=
      ih hwords ((p.next ' ').after (c :: rest))
    obtain ⟨sort, hcut, htoken⟩ := hscanned line hblank
    obtain ⟨t, ht, hword⟩ := htoken (p.next ' ')
    refine ⟨' ' :: (c :: rest ++ line), t :: found, q, by simp_all, by simp, ?_, ?_⟩
    swap
    · simp [hword, hfound]
    rw [scanFrom_layout_cons rfl, scanFrom_of_cutItem? hcut, ht, scanFrom_done, hscan]
    rfl

/-! ## Tokens that end too early -/

namespace Program

variable {depth : Nat} {ts rest : List Token} {last : Token} {f : Fault} {p : Program}

/-- The tokens `ts` and an end of input, `last`, at which alone they are refused. -/
structure RefusedAtEnd (depth : Nat) (ts : List Token) (last : Token) : Prop where
  opens : ∀ t ∈ ts, t.isEnd = false
  ends : last.isEnd = true
  refused : ∃ f, ofTokens depth (ts ++ [last]) = .error (.fault f) ∧ f.isAtEnd = true

/-- Whether the tokens `ts` can be completed to those of a program, by further ones before their
    end. -/
def Completable (ts : List Token) (last : Token) : Prop :=
  ∃ more, (∀ t ∈ more, t.isEnd = false) ∧ Token.MakeProgram (ts ++ more ++ [last])

/-- What stands before the end of input `last` reaches no further than to the first one. -/
theorem prefix_of_append_eq {taken more : List Token} (hts : ∀ t ∈ ts, t.isEnd = false)
    (hlast : last.isEnd = true) (h : ts ++ rest = taken ++ last :: more) : ts <+: taken := by
  rcases List.append_eq_append_iff.1 h with ⟨between, rfl, -⟩ | ⟨between, rfl, hbetween⟩
  · exact ⟨between, rfl⟩
  · cases between with
    | nil => simp
    | cons t between =>
      obtain ⟨rfl, -⟩ := List.cons.inj hbetween
      simp [hts last (by simp)] at hlast

/-- In what a program begins with, `ts`, variables only are assigned to. -/
theorem assignsVariables_of_ofTokens (hts : ∀ t ∈ ts, t.isEnd = false)
    (h : ofTokens depth (ts ++ rest) = .ok p) : AssignsVariables (Token.words ts) := by
  obtain ⟨c, c', hc, hsetting, htokens, hrun⟩ := exists_run_of_ofTokens h
  obtain ⟨hwf, c₁, hspells, hend⟩ :=
    Grammar.program_sound (Grammar.nested_sound depth) hc hsetting hrun
  obtain ⟨taken, htaken, hwords⟩ := hspells.exists_tokens hc
  obtain ⟨more, rfl⟩ := prefix_of_append_eq hts hend (htokens.symm.trans htaken)
  have hall := Program.assignsVariables hwf
  rw [← Token.words_eq_of_map_word? hwords, Token.words, List.filterMap_append] at hall
  exact AssignsBehind.left hall

/-- Tokens that are refused at their end have words with which a program begins, unless they assign
    to what is no variable; and what has to follow are words that `Fills`. -/
theorem RefusedAtEnd.exists_completion (h : RefusedAtEnd depth ts last)
    (hassigns : AssignsVariables (Token.words ts)) :
    ∃ more : List Word, (∀ w ∈ more, w.Fills) ∧
      ∃ p : Program, p.WellFormed ∧ p.spelled = Token.words ts ++ more := by
  obtain ⟨hts, -, f, h, hend⟩ := h
  cases hc : Cursor.ofTokens? (ts ++ [last]) with
  | none =>
    simp only [ofTokens, hc] at h
    cases h
    simp [Fault.isAtEnd] at hend
  | some c =>
    obtain ⟨-, htokens, hloops, hfunctions, hclosed⟩ := Cursor.ofTokens?_eq_some_iff.1 hc
    rw [ofTokens_of_cursor hc] at h
    split at h
    · cases h
    rename_i e c' hrun
    cases h
    have hsetting : c.setting = .outermost := by
      simp [Cursor.setting, Setting.outermost, hloops, hfunctions]
    obtain ⟨words, c₁, hspells, hend', more, hfills, hfull⟩ := Grammar.program_breaks
      (Grammar.nested_sound depth) (Grammar.nested_breaks depth) hclosed hsetting hrun hend
    obtain ⟨taken, htaken, hwords⟩ := hspells.exists_tokens hclosed
    rw [htokens] at htaken
    obtain ⟨between, rfl⟩ := prefix_of_append_eq hts hend' htaken
    obtain rfl : between = [] := by
      cases between <;> simp_all
    rw [List.append_nil] at hwords
    rw [Token.words_eq_of_map_word? hwords] at hassigns ⊢
    -- what follows assigns nothing
    have hmore : AssignsBehind words more := by
      rintro front rest rfl
      exact (hfills (.operator "=") (by simp)).elim
    refine ⟨more, hfills, hfull.resolve_left fun hmisassigned => ?_⟩
    exact hmisassigned.not_assignsVariables (AssignsBehind.append hassigns hmore)

/-- Words that complete `ts` to the spelling of the program `p` make one of them. -/
theorem makeProgram_of_words {more : List Token} (hwf : p.WellFormed)
    (hts : ∀ t ∈ ts, t.isEnd = false) {words : List Word}
    (hspelled : p.spelled = Token.words ts ++ words)
    (hwords : more.map Token.word? = words.map some) (hlast : last.isEnd = true) :
    Token.MakeProgram (ts ++ more ++ [last]) := by
  have hall : (ts ++ more).map Token.word? = p.spelled.map some := by
    rw [hspelled, List.map_append, List.map_append, Token.map_word?_eq hts, hwords]
  obtain ⟨q, hq, -⟩ := exists_of_words hwf hall hlast (Nat.le_refl p.nesting)
  exact Token.makeProgram_of_ofTokens hq

/-- Tokens that are refused at their end are `Completable` if they assign to variables only, and
    otherwise they are not. -/
theorem RefusedAtEnd.completable_iff (h : RefusedAtEnd depth ts last) :
    Completable ts last ↔ AssignsVariables (Token.words ts) := by
  constructor
  · rintro ⟨more, -, p, hp⟩
    have hread := hp _ (Nat.le_refl _)
    rw [List.append_assoc] at hread
    exact assignsVariables_of_ofTokens h.opens hread
  · intro hassigns
    obtain ⟨words, hfills, p, hwf, hspelled⟩ := h.exists_completion hassigns
    obtain ⟨_, more, _, -, -, -, hmore⟩ := exists_line_of_fills hfills .start
    refine ⟨more, fun t ht => ?_, makeProgram_of_words hwf h.opens hspelled hmore h.ends⟩
    obtain ⟨w, -, hw⟩ := List.mem_map.1 (hmore ▸ List.mem_map_of_mem ht)
    exact Token.isEnd_eq_false hw.symm

/-! ## Texts that end too early -/

variable {source : String}

/-- In the lines of a `source` that a program begins with, variables only are assigned to. -/
theorem assignsVariables_of_ofSource (hsource : tokenize source = .ok (ts ++ [last]))
    (hts : ∀ t ∈ ts, t.isEnd = false) {more : String} {tokens : List Token}
    (h : ofSource depth (source ++ "\n" ++ more) = .ok (tokens, p)) :
    AssignsVariables (Token.words ts) := by
  obtain ⟨htokens, hread⟩ := ofSource_eq_ok.1 h
  rcases exists_tokens_of_prefix htokens with ⟨f, hf, -⟩ | ⟨found, last', rest, q, hfound, -, rfl⟩
  · cases hsource.symm.trans hf
  · obtain ⟨rfl, -⟩ := List.append_inj' (Except.ok.inj (hsource.symm.trans hfound)) rfl
    exact assignsVariables_of_ofTokens hts hread

/-- One `line` behind them makes a program of lines that are refused at their end and assign to
    variables only. -/
theorem RefusedAtEnd.exists_line (h : RefusedAtEnd depth ts last)
    (hsource : tokenize source = .ok (ts ++ [last]))
    (hassigns : AssignsVariables (Token.words ts)) :
    ∃ (line : List Char) (tokens : List Token), '\n' ∉ line ∧
      tokenize (source ++ "\n" ++ String.ofList line) = .ok tokens ∧ Token.MakeProgram tokens := by
  obtain ⟨words, hfills, p, hwf, hspelled⟩ := h.exists_completion hassigns
  obtain ⟨line, more, q, hline, -, hscan, hmore⟩ := exists_line_of_fills hfills .start
  have hscanned : tokenize (String.ofList line) = .ok (more ++ [Token.endAt q]) := by
    rw [tokenize_eq_ok, scan, String.toList_ofList, hscan]
    simp
  obtain ⟨found, last', hfound, -, -, hwhole⟩ := tokenize_append_lineFeed hsource hscanned
  obtain ⟨rfl, -⟩ := List.append_inj' hfound rfl
  refine ⟨line, _, hline, hwhole, ?_⟩
  rw [List.map_append, List.map_singleton, ← List.append_assoc]
  refine makeProgram_of_words hwf h.opens hspelled ?_ rfl
  rw [List.map_map]
  exact hmore

end Program

end Scripting
