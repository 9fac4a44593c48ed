import Scripting.Number.Literal
import Scripting.Text.Word

set_option autoImplicit false

/-! # Items of a source text

A source text is cut by `cutItem?` from left to right into items: layout, line feeds and comments,
which only separate, and numbers, strings, words, operators and punctuation, which become tokens. An
item is cut off by the text alone, whatever its position and whatever stands before it. Each item is
the longest of its sort: two signs that make one operator are never read as two, and a word or a
number ends only where no further character belongs to it. -/

namespace Scripting

/-! ## Alphabets -/

/-- The blanks that separate items on one line. -/
def isLayout (c : Char) : Bool :=
  c = ' ' || c = '\t' || c = '\r'

/-- Whether a word can begin with a character. -/
def isWordStart (c : Char) : Bool :=
  c.isAlpha || c = '_'

/-- Whether a character stays on its line. -/
def inLine (c : Char) : Bool :=
  c != '\n'

/-! ## Items -/

/-- The sorts of items. -/
inductive ItemSort where
  | layout | lineFeed | comment
  | number | string | word | operator | punctuation
  deriving DecidableEq, Repr

/-- An item at the front of a text, of which `text` is the item's own and `rest` what is behind
    it. -/
structure Cut where
  sort : ItemSort
  text : List Char
  rest : List Char
  deriving DecidableEq, Repr

/-- The inside of a string up to its closing quote, the quote included, and the text behind it. A
    backslash takes the character after it along, so that a quote behind a backslash does not close
    the string. There is none if the text ends before the string does. -/
def cutString : List Char → Option (List Char × List Char)
  | [] => none
  | '"' :: rest => some (['"'], rest)
  | '\\' :: c :: rest => (cutString rest).map fun r => ('\\' :: c :: r.1, r.2)
  | ['\\'] => none
  | c :: rest => (cutString rest).map fun r => (c :: r.1, r.2)

/-- An operator at the front of a text; one of two characters goes before one of a single
    character. -/
def cutOperator : List Char → Option Cut
  | '=' :: '=' :: rest => some ⟨.operator, ['=', '='], rest⟩
  | '!' :: '=' :: rest => some ⟨.operator, ['!', '='], rest⟩
  | '<' :: '=' :: rest => some ⟨.operator, ['<', '='], rest⟩
  | '>' :: '=' :: rest => some ⟨.operator, ['>', '='], rest⟩
  | c :: rest =>
    if ['=', '<', '>', '+', '-', '*', '/', '!'].contains c then some ⟨.operator, [c], rest⟩
    else none
  | [] => none

/-- A mark of punctuation at the front of a text. -/
def cutPunctuation : List Char → Option Cut
  | c :: rest =>
    if ['(', ')', '\x7b', '\x7d', ',', ';'].contains c then some ⟨.punctuation, [c], rest⟩
    else none
  | [] => none

/-- A comment at the front of a text: from a hash or two slashes to the end of the line. -/
def cutComment : List Char → Option Cut
  | '#' :: rest => some ⟨.comment, '#' :: rest.takeWhile inLine, rest.dropWhile inLine⟩
  | '/' :: '/' :: rest =>
    some ⟨.comment, '/' :: '/' :: rest.takeWhile inLine, rest.dropWhile inLine⟩
  | _ => none

/-- An item whose sort its first character `c` decides. -/
def cutRun (c : Char) (rest : List Char) : Option Cut :=
  if c = '\n' then some ⟨.lineFeed, [c], rest⟩
  else if isLayout c then
    some ⟨.layout, c :: rest.takeWhile isLayout, rest.dropWhile isLayout⟩
  else if c.isDigit then
    let (text, after) := Number.cutLiteral (c :: rest)
    some ⟨.number, text, after⟩
  else if c = '"' then
    (cutString rest).map fun r => ⟨.string, c :: r.1, r.2⟩
  else if isWordStart c then
    some ⟨.word, c :: rest.takeWhile Text.isWordPart, rest.dropWhile Text.isWordPart⟩
  else none

/-- The item at the front of a text. There is none at the end of the text, before a quote that opens
    a string without an end, and before a character outside the alphabet. -/
def cutItem? : List Char → Option Cut
  | [] => none
  | c :: rest =>
    -- a comment goes first, as its slashes would be operators
    (cutComment (c :: rest)).or <|
      (cutRun c rest).or <| (cutOperator (c :: rest)).or <| cutPunctuation (c :: rest)

/-! ## An item and the rest make up the text -/

/-- The `cut` takes the front of `s` and leaves the rest of it. -/
def Cut.Splits (cut : Cut) (s : List Char) : Prop :=
  cut.text ++ cut.rest = s ∧ cut.text ≠ []

theorem cutString_append {s : List Char} {r : List Char × List Char} (h : cutString s = some r) :
    r.1 ++ r.2 = s := by
  fun_induction cutString s generalizing r with
  | case1 => simp at h
  | case2 => cases h; rfl
  | case3 c rest ih =>
    obtain ⟨q, hq, rfl⟩ := Option.map_eq_some_iff.1 h
    simp [ih hq]
  | case4 => simp at h
  | case5 c rest _ _ _ ih =>
    obtain ⟨q, hq, rfl⟩ := Option.map_eq_some_iff.1 h
    simp [ih hq]

theorem cutComment_splits {s : List Char} {cut : Cut} (h : cutComment s = some cut) :
    cut.Splits s := by
  unfold cutComment at h
  split at h <;> simp at h <;> subst h <;> simp [Cut.Splits]

theorem cutOperator_splits {s : List Char} {cut : Cut} (h : cutOperator s = some cut) :
    cut.Splits s := by
  unfold cutOperator at h
  split at h
  case h_5 =>
    split at h
    · cases h; simp [Cut.Splits]
    · simp at h
  all_goals first | (cases h; simp [Cut.Splits]) | simp at h

theorem cutPunctuation_splits {s : List Char} {cut : Cut} (h : cutPunctuation s = some cut) :
    cut.Splits s := by
  unfold cutPunctuation at h
  split at h
  · split at h
    · cases h; simp [Cut.Splits]
    · simp at h
  · simp at h

theorem cutLiteral_ne_nil {c : Char} (rest : List Char) (h : c.isDigit) :
    (Number.cutLiteral (c :: rest)).1 ≠ [] := by
  unfold Number.cutLiteral
  split
  · rename_i hnil
    simp [h] at hnil
  · unfold Number.cutFraction
    split
    · split <;> simp
    · simp

theorem cutRun_splits {c : Char} {rest : List Char} {cut : Cut} (h : cutRun c rest = some cut) :
    cut.Splits (c :: rest) := by
  unfold cutRun at h
  split at h
  · cases h; simp [Cut.Splits]
  split at h
  · cases h; simp [Cut.Splits]
  split at h
  · rename_i hd
    cases h
    exact ⟨Number.cutLiteral_append _, cutLiteral_ne_nil rest hd⟩
  split at h
  · obtain ⟨r, hr, rfl⟩ := Option.map_eq_some_iff.1 h
    simp [Cut.Splits, cutString_append hr]
  split at h
  · cases h; simp [Cut.Splits]
  · simp at h

theorem cutItem?_splits {s : List Char} {cut : Cut} (h : cutItem? s = some cut) :
    cut.Splits s := by
  cases s with
  | nil => simp [cutItem?] at h
  | cons c rest =>
    simp only [cutItem?, Option.or_eq_some_iff] at h
    rcases h with h | ⟨_, h | ⟨_, h | ⟨_, h⟩⟩⟩
    · exact cutComment_splits h
    · exact cutRun_splits h
    · exact cutOperator_splits h
    · exact cutPunctuation_splits h

/-- What `cutItem?` leaves of `s` is shorter than `s`. -/
theorem cutItem?_length {s : List Char} {cut : Cut} (h : cutItem? s = some cut) :
    cut.rest.length < s.length := by
  obtain ⟨happ, hne⟩ := cutItem?_splits h
  have hpos := List.length_pos_iff.2 hne
  rw [← happ, List.length_append]
  omega

end Scripting
