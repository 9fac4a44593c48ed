import Scripting.Grammar.Statement
import Mathlib.Data.List.Forall2

set_option autoImplicit false

/-! # The spelling of programs

Every program is spelled by a sequence of words, `Program.spelled`, from left to right. A `Word` is
what the grammar sees of a token: its kind and text, or only the value for which a literal stands,
as `1` and `1.0` are one word. Places and the texts of literals are no part of the spelling, so the
trees with the same spelling are compared with their positions left out. -/

namespace Scripting

/-! ## Words -/

/-- What the grammar sees of a token. The words `true`, `false` and `nil` are literals like numbers
    and strings. -/
inductive Word where
  | literal (value : Value)
  | name (text : String)
  | keyword (text : String)
  | operator (text : String)
  | mark (text : String)
  deriving DecidableEq

/-- The word of a token; an `endOfInput` has none. -/
def Token.word? (t : Token) : Option Word :=
  match Grammar.literalValue? t with
  | some value => some (.literal value)
  | none =>
    match t.kind with
    | .identifier => some (.name t.lexeme)
    | .keyword => some (.keyword t.lexeme)
    | .operator => some (.operator t.lexeme)
    | .punctuation => some (.mark t.lexeme)
    | .number | .string | .endOfInput => none

/-- Whether a token is a literal for a value: a number or a string by what it carries, and anything
    else by its `lexeme`. A function has no literal. -/
def Token.WritesValue (t : Token) : Value → Prop
  | .num x => t.kind = .number ∧ t.value = .num x
  | .str s => t.kind = .string ∧ t.value = .str s
  | .bool true => t.kind = .keyword ∧ t.lexeme = "true"
  | .bool false => t.kind = .keyword ∧ t.lexeme = "false"
  | .nil => t.kind = .keyword ∧ t.lexeme = "nil"
  | .function _ _ => False
  | .builtin _ => False

/-- Whether a token writes a word. -/
def Token.Writes (t : Token) : Word → Prop
  | .literal value => t.WritesValue value
  | .name text => t.kind = .identifier ∧ t.lexeme = text
  | .keyword text => t.kind = .keyword ∧ t.lexeme = text ∧ Grammar.keywordValue? text = none
  | .operator text => t.kind = .operator ∧ t.lexeme = text
  | .mark text => t.kind = .punctuation ∧ t.lexeme = text

/-- Whether `tokens` write `words` one by one. -/
def Token.WriteAll (tokens : List Token) (words : List Word) : Prop :=
  List.Forall₂ Token.Writes tokens words

/-- Whether a number carries a number and a string carries a string, as all tokens do that
    `tokenize` makes. -/
def Token.Carries (t : Token) : Prop :=
  (t.kind = .number → ∃ x, t.value = .num x) ∧ (t.kind = .string → ∃ s, t.value = .str s)

theorem Token.literalValue?_of_writesValue {t : Token} {v : Value} (h : t.WritesValue v) :
    Grammar.literalValue? t = some v := by
  unfold WritesValue at h
  split at h
  all_goals simp_all [Grammar.literalValue?, Grammar.keywordValue?]

/-- A token has the word that it `Writes`. -/
theorem Token.word?_of_writes {t : Token} {w : Word} (h : t.Writes w) : t.word? = some w := by
  cases w with
  | literal v => simp [word?, literalValue?_of_writesValue h]
  | keyword s =>
    obtain ⟨hkind, hlexeme, hvalue⟩ := h
    simp [word?, Grammar.literalValue?, hkind, hlexeme, hvalue]
  | _ =>
    obtain ⟨hkind, hlexeme⟩ := h
    simp [word?, Grammar.literalValue?, hkind, hlexeme]

theorem Token.word?_eq_none_iff {t : Token} : t.word? = none ↔ t.isEnd = true := by
  unfold word? isEnd Grammar.literalValue?
  cases t.kind <;> simp
  cases Grammar.keywordValue? t.lexeme <;> simp

theorem Token.isEnd_eq_false {t : Token} {w : Word} (h : t.word? = some w) : t.isEnd = false := by
  rw [Bool.eq_false_iff, ne_eq, ← Token.word?_eq_none_iff, h]
  simp

/-- The value of a keyword is a literal: those of `true`, `false` and `nil`. -/
theorem keywordValue?_cases {s : String} {v : Value} (h : Grammar.keywordValue? s = some v) :
    (s = "true" ∧ v = .bool true) ∨ (s = "false" ∧ v = .bool false) ∨ (s = "nil" ∧ v = .nil) := by
  unfold Grammar.keywordValue? at h
  split at h <;> simp_all

theorem Token.writesValue_of_literalValue? {t : Token} {v : Value} (ht : t.Carries)
    (h : Grammar.literalValue? t = some v) : t.WritesValue v := by
  unfold Grammar.literalValue? at h
  split at h
  · rename_i hkind
    obtain ⟨x, hx⟩ := ht.1 hkind
    rw [hx, Option.some.injEq] at h
    subst h
    exact ⟨hkind, hx⟩
  · rename_i hkind
    obtain ⟨s, hs⟩ := ht.2 hkind
    rw [hs, Option.some.injEq] at h
    subst h
    exact ⟨hkind, hs⟩
  · rename_i hkind
    rcases keywordValue?_cases h with ⟨hs, rfl⟩ | ⟨hs, rfl⟩ | ⟨hs, rfl⟩ <;> exact ⟨hkind, hs⟩
  · simp at h

/-- A token that `Carries` what it should writes the word that it has. -/
theorem Token.writes_of_word? {t : Token} {w : Word} (ht : t.Carries) (h : t.word? = some w) :
    t.Writes w := by
  unfold word? at h
  split at h
  · rename_i value hvalue
    rw [Option.some.injEq] at h
    subst h
    exact writesValue_of_literalValue? ht hvalue
  · rename_i hvalue
    cases hkind : t.kind with
    | keyword =>
      simp only [hkind, Option.some.injEq] at h
      subst h
      exact ⟨hkind, rfl, by simpa [Grammar.literalValue?, hkind] using hvalue⟩
    | number => simp [hkind] at h
    | string => simp [hkind] at h
    | endOfInput => simp [hkind] at h
    | _ =>
      simp only [hkind, Option.some.injEq] at h
      subst h
      exact ⟨hkind, rfl⟩

theorem Token.map_word?_of_writeAll {tokens : List Token} {words : List Word}
    (h : Token.WriteAll tokens words) : tokens.map Token.word? = words.map some := by
  induction h with
  | nil => rfl
  | cons hword _ ih => simp [word?_of_writes hword, ih]

theorem Token.writeAll_of_map_word? {tokens : List Token} {words : List Word}
    (carried : ∀ t ∈ tokens, t.Carries) (h : tokens.map Token.word? = words.map some) :
    Token.WriteAll tokens words := by
  induction tokens generalizing words with
  | nil =>
    cases words with
    | nil => exact .nil
    | cons w words => simp at h
  | cons t tokens ih =>
    cases words with
    | nil => simp at h
    | cons w words =>
      simp only [List.map_cons, List.cons.injEq] at h
      have hrest : ∀ t ∈ tokens, t.Carries := fun t ht => carried t (List.mem_cons_of_mem _ ht)
      exact .cons (writes_of_word? (carried t List.mem_cons_self) h.1) (ih hrest h.2)

/-- None of the tokens that write words is an end of input. -/
theorem Token.isEnd_of_mem_writeAll {tokens : List Token} {words : List Word} {t : Token}
    (h : Token.WriteAll tokens words) (ht : t ∈ tokens) : t.isEnd = false := by
  have hword : t.word? ∈ words.map some := map_word?_of_writeAll h ▸ List.mem_map_of_mem ht
  obtain ⟨w, -, hw⟩ := List.mem_map.1 hword
  rw [Bool.eq_false_iff, ne_eq, ← word?_eq_none_iff, ← hw]
  simp

/-! ## Spelling -/

/-- The text of a sign of negation, as `Operator.spelling` has it. -/
def Operator.sign : Operator → String
  | .not => "!"
  | _ => "-"

/-- Words with commas between them. -/
def commaSeparated : List (List Word) → List Word
  | [] => []
  | [words] => words
  | words :: rest => words ++ .mark "," :: commaSeparated rest

mutual

/-- The words of an expression. -/
def Expr.spelled : Expr → List Word
  | .literal value _ => [.literal value]
  | .identifier name _ => [.name name]
  | .unary op operand _ => .operator op.sign :: operand.spelled
  | .binary op left right _ => left.spelled ++ .operator op.spelling :: right.spelled
  | .logical op left right _ => left.spelled ++ .keyword op.spelling :: right.spelled
  | .call callee arguments _ =>
    callee.spelled ++ .mark "(" :: (commaSeparated (Expr.spelledEach arguments) ++ [.mark ")"])
  | .assignment name value _ => .name name :: .operator "=" :: value.spelled
  | .grouping inner _ => .mark "(" :: (inner.spelled ++ [.mark ")"])
  | .stray _ => []

/-- The words of each expression of a list. -/
def Expr.spelledEach : List Expr → List (List Word)
  | [] => []
  | e :: rest => e.spelled :: Expr.spelledEach rest

end

theorem Expr.spelledEach_eq_map (es : List Expr) : Expr.spelledEach es = es.map Expr.spelled := by
  induction es with
  | nil => rfl
  | cons e rest ih => simp [spelledEach, ih]

/-- The words of an initial value, with `=` before it. -/
def Expr.spelledInitial : Option Expr → List Word
  | none => []
  | some e => .operator "=" :: e.spelled

/-- The words of an expression that may be left out. -/
def Expr.spelledOption : Option Expr → List Word
  | none => []
  | some e => e.spelled

mutual

/-- The words of a statement. -/
def Stmt.spelled : Stmt → List Word
  | .expression e _ => e.spelled ++ [.mark ";"]
  | .print e _ => .keyword "print" :: (e.spelled ++ [.mark ";"])
  | .declaration name initializer _ =>
    .keyword "let" :: .name name :: (Expr.spelledInitial initializer ++ [.mark ";"])
  | .block statements _ =>
    .mark Grammar.openBrace :: (Stmt.spelledAll statements ++ [.mark Grammar.closeBrace])
  | .conditional condition thenBranch elseBranch _ =>
    .keyword "if" :: (condition.spelled ++ (thenBranch.spelled ++ Stmt.spelledElse elseBranch))
  | .loop condition body _ => .keyword "while" :: (condition.spelled ++ body.spelled)
  | .function name parameters body _ =>
    .keyword "fn" :: .name name :: .mark "(" ::
      (commaSeparated (parameters.map fun p => [.name p]) ++ .mark ")" :: body.spelled)
  | .result value _ => .keyword "return" :: (Expr.spelledOption value ++ [.mark ";"])
  | .jump which _ => [.keyword which.keyword, .mark ";"]
  | .stray _ _ => []

/-- The words of statements one after the other. -/
def Stmt.spelledAll : List Stmt → List Word
  | [] => []
  | s :: rest => s.spelled ++ Stmt.spelledAll rest

/-- The words of what stands behind a conditional, with `else` before it. -/
def Stmt.spelledElse : Option Stmt → List Word
  | none => []
  | some s => .keyword "else" :: s.spelled

end

/-- The words of a program, those of its statements. -/
def Program.spelled (p : Program) : List Word :=
  Stmt.spelledAll p

theorem Stmt.spelledAll_append (ss ts : List Stmt) :
    Stmt.spelledAll (ss ++ ts) = Stmt.spelledAll ss ++ Stmt.spelledAll ts := by
  induction ss with
  | nil => rfl
  | cons s rest ih => simp [spelledAll, ih]

/-- Every element but the first has a comma before it. -/
theorem commaSeparated_cons (words : List Word) (rest : List (List Word)) :
    commaSeparated (words :: rest) = words ++ rest.flatMap fun part => .mark "," :: part := by
  induction rest generalizing words with
  | nil => simp [commaSeparated]
  | cons part rest ih => simp [commaSeparated, ih]

/-- A further element behind a comma; `parts` are the ones before it. -/
theorem commaSeparated_concat {parts : List (List Word)} (words : List Word) (h : parts ≠ []) :
    commaSeparated (parts ++ [words]) = commaSeparated parts ++ .mark "," :: words := by
  obtain ⟨part, rest, rfl⟩ := List.exists_cons_of_ne_nil h
  simp [commaSeparated_cons]

/-- A last element behind others, each of them with a comma behind it. -/
theorem commaSeparated_map_concat {α : Type} (spelled : α → List Word) (as : List α)
    (words : List Word) :
    commaSeparated (as.map spelled ++ [words]) =
      as.flatMap (fun a => spelled a ++ [.mark ","]) ++ words := by
  induction as with
  | nil => rfl
  | cons a rest ih =>
    have hcons : ∃ next more, rest.map spelled ++ [words] = next :: more := by
      cases rest <;> simp
    obtain ⟨next, more, hmore⟩ := hcons
    rw [List.map_cons, List.cons_append, hmore, commaSeparated, ← hmore, ih]
    · simp
    · simp

end Scripting
