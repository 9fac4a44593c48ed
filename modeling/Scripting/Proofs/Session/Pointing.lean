import Mathlib
import Scripting.Proofs.Evaluation.Likeness
import Scripting.Proofs.Grammar.StatementAlike
import Scripting.Proofs.Session.Texts
import Scripting.Proofs.Token.Standing

set_option autoImplicit false

/-! # Faults point at their causes

Whatever is wrong with a text, whether it is found in scanning, in reading or in running it, the
fault points at the place in the text where the word stands that the fault is about:
`Fault.PointsAtCause`. Tokens carry the positions at which they stand, nodes those of the tokens
that they are about, and functions keep their nodes, wherever they are called from later. -/

namespace Scripting

/-! ## What a fault is about -/

/-- The text of a word that is no literal. -/
def Word.text : Word → String
  | .literal _ => ""
  | .name s | .keyword s | .operator s | .mark s => s

theorem Token.text_of_word? {t : Token} {w : Word} (h : t.word? = some w) :
    w.text.toList <+: t.lexeme.toList := by
  unfold word? at h
  split at h
  · cases h
    exact List.nil_prefix
  · split at h <;> cases h <;> exact List.prefix_rfl

/-- The spelling of the operator that operands do not fit. -/
def Mismatch.operator : Mismatch → String
  | .negation _ => "-"
  | .operands op _ _ => op.spelling
  | .comparison op _ _ => op.spelling

/-- Whether a text begins with what the fault of a cause is about. A violation of the grammar at the
    end of a source has nothing behind it. -/
def Cause.Heads : Cause → List Char → Prop
  | .invalidCharacter text, rest => ∃ c, text = c.toString ∧ [c] <+: rest
  | .unterminatedString, rest => ['"'] <+: rest
  | .violation _ (some t), rest => if t.isEnd then rest = [] else t.lexeme.toList <+: rest
  | .undefinedVariable name, rest => name.toList <+: rest
  | .typeMismatch m, rest => m.operator.toList <+: rest
  | .divisionByZero, rest => ['/'] <+: rest
  | .arity _ _ _, rest => ['('] <+: rest
  | .notCallable _, rest => ['('] <+: rest
  | .violation _ none, _ => False
  | .worded _ _, _ => False

theorem Cause.heads_of_subject? {cause : Cause} {w : Word} {rest : List Char}
    (hsubject : cause.subject? = some w) (h : w.text.toList <+: rest) : cause.Heads rest := by
  unfold subject? at hsubject
  split at hsubject <;> cases hsubject <;> exact h

theorem strayCharacter_place (c : Char) (p : Position) : (strayCharacter c p).place = p.place := by
  unfold strayCharacter
  split <;> rfl

theorem strayCharacter_heads (c : Char) (p : Position) (rest : List Char) :
    (strayCharacter c p).cause.Heads (c :: rest) := by
  unfold strayCharacter
  split
  · rename_i hquote
    subst hquote
    exact ⟨rest, rfl⟩
  · exact ⟨c, rfl, rest, rfl⟩

/-! ## Words where they stand -/

/-- The correspondence of a tree to itself whose words stand in `source` at their positions. -/
def Correspondence.standing (source : List Char) : Correspondence where
  literal v v' := v' = v
  point w p p' := p' = p ∧
    ∀ word ∈ w, ∃ rest, p.Begins source rest ∧ word.text.toList <+: rest
  token t t' := t' = t ∧ t.StandsIn source

theorem Token.StandsIn.tokens {source : List Char} {t : Token} (h : t.StandsIn source) :
    (Correspondence.standing source).Tokens t t := by
  refine .self (fun _ _ => rfl) ⟨rfl, nofun⟩ ⟨rfl, fun w hw => ?_⟩ ⟨rfl, h⟩
  obtain ⟨rest, hbegins, hrest⟩ := h
  rw [Token.isEnd_eq_false hw] at hrest
  exact ⟨rest, hbegins, (Token.text_of_word? hw).trans hrest⟩

theorem Program.standing_of_ofSource {depth : Nat} {source : String} {tokens : List Token}
    {p : Program} (h : ofSource depth source = .ok (tokens, p)) :
    p.Corresponds (.standing source.toList) p := by
  obtain ⟨htokens, hp⟩ := ofSource_eq_ok.1 h
  exact corresponds_self_of_ofTokens (fun t ht => (tokenize_standsIn htokens t ht).tokens) hp

/-! ## Stages -/

/-- Whether the fault `f` is at a position of `source` where the text begins with what it is
    about. -/
def Fault.StandsIn (source : List Char) (f : Fault) : Prop :=
  ∃ (p : Position) (rest : List Char), f.place = p.place ∧ p.Begins source rest ∧ f.cause.Heads rest

theorem Program.standsIn_of_ofSource {depth : Nat} {source : String} {f : Fault}
    (h : ofSource depth source = .error (.fault f)) : f.StandsIn source.toList := by
  rcases ofSource_eq_error.1 h with ⟨f', htokenize, hf⟩ | ⟨tokens, htokens, hread⟩
  · cases hf
    obtain ⟨c, rest, p, rfl, hbegins⟩ := exists_begins_of_tokenize htokenize
    exact ⟨p, c :: rest, strayCharacter_place c p, hbegins, strayCharacter_heads c p rest⟩
  · -- a token is blamed, which stands where it says
    obtain ⟨found, q, hclosed⟩ := tokenize_closes htokens
    have hend : Cursor.ofTokens? [Token.endAt q] = some ⟨[], Token.endAt q, [], 0, 0⟩ := rfl
    obtain ⟨c, hc⟩ := Cursor.exists_ofTokens?_append hend found
    have hstanding : List.Forall₂ (Correspondence.standing source.toList).Tokens tokens tokens :=
      List.forall₂_same.2 fun t ht => (tokenize_standsIn htokens t ht).tokens
    obtain ⟨e', -, hrefusals⟩ := refusals_of_ofTokens hstanding (hclosed ▸ hc) hread
    cases hrefusals with
    | atToken v ht =>
      obtain ⟨rest, hbegins, hrest⟩ := ht.token.2
      exact ⟨_, rest, rfl, hbegins, hrest⟩

theorem Program.standsIn_of_run {limits : Limits} {source : List Char} {p : Program}
    (hp : p.Corresponds (.standing source) p) {m m' : Machine} (hm : m.functions = #[]) {f : Fault}
    (h : (p.run limits Machine.globals).run m = .error (.fault f) m') : f.StandsIn source := by
  have hsame : m.Corresponds (.standing source) m :=
    { scopes := rfl, size := rfl, input := rfl, inputEnd := rfl, output := rfl
      functions := fun i => by
        rw [hm]
        exact ⟨rfl, rfl, ⟨trivial, rfl, nofun⟩, rfl⟩ }
  obtain ⟨e', m₁', -, -, hstop⟩ := exists_run_of_error (k := .standing source) id hp hsame h
  obtain ⟨cause, w, p, p', rfl, -, hsubject, -, hword⟩ := hstop.exists_subject
  obtain ⟨rest, hbegins, hrest⟩ := hword w rfl
  exact ⟨p, rest, rfl, hbegins, Cause.heads_of_subject? hsubject hrest⟩

/-- Whether the fault `f` points into `source` at what it is about: at a line of the source and at a
    column of that line, or right behind the line, where the text begins with what the fault is
    about. An excerpt of the source then ends with that line and with a caret under that column. -/
def Fault.PointsAtCause (source : String) (f : Fault) : Prop :=
  ∃ (line column : Nat) (text rest : List Char), f.place = ⟨some line, some column⟩ ∧
    1 ≤ line ∧ line ≤ source.toList.count '\n' + 1 ∧ 1 ≤ column ∧ column ≤ text.length + 1 ∧
    Text.line? (line - 1) source.toList = some text ∧ '\n' ∉ text ∧
    Text.from? line column source.toList = some rest ∧ f.cause.Heads rest ∧
    ∀ file, ∃ header, ((Report.mk f file).excerpt source).toList =
      header ++ '\n' :: text ++ '\n' :: List.replicate (column - 1) ' ' ++ ['^']

/-- The end of an `excerpt` for a place in `source`. -/
theorem Report.toList_excerpt {f : Fault} {line column : Nat} {source : String} {text : List Char}
    (hplace : f.place = ⟨some line, some column⟩) (hline : 1 ≤ line) (hcolumn : 1 ≤ column)
    (htext : Text.line? (line - 1) source.toList = some text) (file : Option String) :
    ∃ header, ((Report.mk f file).excerpt source).toList =
      header ++ '\n' :: text ++ '\n' :: List.replicate (column - 1) ' ' ++ ['^'] := by
  have hsource : Report.sourceLine source line = String.ofList text := by
    have hindex : ((line : Int) - 1).toNat = line - 1 := by omega
    rw [Report.sourceLine, if_pos (by omega), hindex, htext]
    rfl
  have hnonzero : ¬ (column : Int) = 0 := by omega
  have hwidth : ((column : Int) - 1).toNat = column - 1 := by omega
  have hcolon : ":\n".toList = [':', '\n'] := rfl
  have hlineFeed : "\n".toList = ['\n'] := rfl
  have hend (front : List Char) : ∃ header, front ++ [':', '\n'] ++ text ++ ['\n'] ++
      (List.replicate (column - 1) ' ' ++ ['^']) =
      header ++ '\n' :: text ++ '\n' :: List.replicate (column - 1) ' ' ++ ['^'] :=
    ⟨front ++ [':'], by simp⟩
  simp only [Report.excerpt, hplace, hsource, if_neg hnonzero, hwidth, toString,
    String.toList_append, String.toList_ofList, hcolon, hlineFeed]
  exact hend _

theorem Fault.StandsIn.pointsAtCause {source : String} {f : Fault}
    (h : f.StandsIn source.toList) : f.PointsAtCause source := by
  obtain ⟨p, rest, hplace, hbegins, hheads⟩ := h
  obtain ⟨line, column, text, rfl, hline, hlines, hcolumn, hcolumns, htext, hlineFeed, hrest⟩ :=
    hbegins.exists_line
  refine ⟨line, column, text, rest, hplace, hline, hlines, hcolumn, hcolumns, htext, hlineFeed,
    hrest, hheads, fun file => ?_⟩
  exact Report.toList_excerpt hplace hline hcolumn htext file

/-- The text `source` that is run on a machine without functions of other texts is at fault where
    its fault points. -/
theorem pointsAtCause_of_interpret {limits : Limits} {source : String} {m m' : Machine}
    (hm : m.functions = #[]) {f : Fault}
    (h : (interpret limits source).run m = .error (.fault f) m') : f.PointsAtCause source := by
  refine Fault.StandsIn.pointsAtCause ?_
  cases hread : Program.ofSource limits.nesting source with
  | error refusal =>
    rw [interpret, hread] at h
    cases refusal with
    | fault f' => cases h; exact Program.standsIn_of_ofSource hread
    | tooDeep => cases h
  | ok r =>
    rw [interpret_of_ofSource hread] at h
    exact Program.standsIn_of_run (Program.standing_of_ofSource hread) hm h

/-- A call inside a function that is called from further down. -/
theorem pointsAtCause_of_interpret_call :
    let source := "let a = nil;\nfn f() \x7b\n  a();\n\x7d\nf();"
    let f : Fault := .located (.notCallable .nil) ⟨3, 4⟩
    (Machine.fresh []).functions = #[] ∧
      (∃ m', (interpret ⟨4, 16, 8⟩ source).run (Machine.fresh []) = .error (.fault f) m') ∧
      f.PointsAtCause source := by
  have hstop : (interpret ⟨4, 16, 8⟩ "let a = nil;\nfn f() \x7b\n  a();\n\x7d\nf();").stop?
      (Machine.fresh []) = some (.fault (.located (.notCallable .nil) ⟨3, 4⟩)) := by
    cbv
  obtain ⟨m', hrun⟩ := Run.stop?_eq_some.1 hstop
  exact ⟨rfl, ⟨m', hrun⟩, pointsAtCause_of_interpret rfl hrun⟩

end Scripting
