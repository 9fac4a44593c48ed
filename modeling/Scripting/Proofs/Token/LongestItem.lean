import Mathlib
import Scripting.Proofs.Token.Continuation

set_option autoImplicit false

/-! # Items are the longest there are

What an item of some sort is can be told by its text alone, without a rule for how it is found:
`ItemSort.Admits`. No text is an item of two sorts, and of the items that a text begins with,
`cutItem?` cuts off the longest. It goes on so until no item begins what is left. -/

namespace Scripting

/-! ## Items by their texts -/

/-- The texts of operators. -/
def operatorTexts : List (List Char) :=
  [['=', '='], ['!', '='], ['<', '='], ['>', '='], ['='], ['<'], ['>'], ['+'], ['-'], ['*'], ['/'],
   ['!']]

/-- The marks of punctuation. -/
def punctuationMarks : List Char :=
  ['(', ')', '\x7b', '\x7d', ',', ';']

/-- Whether a text can stand between the quotes of a string: no quote stands in it but behind a
    backslash, and no backslash at its end but behind another one. -/
inductive Quotable : List Char → Prop
  | nil : Quotable []
  | plain {c : Char} {s : List Char} (hquote : c ≠ '"') (hbackslash : c ≠ '\\') (h : Quotable s) :
    Quotable (c :: s)
  | escape (c : Char) {s : List Char} (h : Quotable s) : Quotable ('\\' :: c :: s)

/-- Whether the text `s` consists of one or more digits. -/
def Digits (s : List Char) : Prop :=
  s ≠ [] ∧ ∀ c ∈ s, c.isDigit = true

/-- Whether a text is an item of the sort. -/
def ItemSort.Admits : ItemSort → List Char → Prop
  | .layout, s => s ≠ [] ∧ ∀ c ∈ s, c ∈ [' ', '\t', '\r']
  | .lineFeed, s => s = ['\n']
  | .comment, s => ∃ line, '\n' ∉ line ∧ (s = '#' :: line ∨ s = '/' :: '/' :: line)
  | .number, s => Digits s ∨ ∃ whole fraction, Digits whole ∧ Digits fraction ∧
      s = whole ++ '.' :: fraction
  | .string, s => ∃ inside, Quotable inside ∧ s = '"' :: inside ++ ['"']
  | .word, s => ∃ c rest, isWordStart c = true ∧ (∀ d ∈ rest, Text.isWordPart d = true) ∧
      s = c :: rest
  | .operator, s => s ∈ operatorTexts
  | .punctuation, s => ∃ c ∈ punctuationMarks, s = [c]

/-- A `sort` and a `text`. -/
structure Item where
  sort : ItemSort
  text : List Char
  deriving DecidableEq

namespace Item

/-- Whether the text `s` begins with `item`. -/
def Begins (item : Item) (s : List Char) : Prop :=
  item.sort.Admits item.text ∧ item.text <+: s

/-- Whether `item` is the longest that the text `s` begins with, and the only one of its length. -/
structure Longest (item : Item) (s : List Char) : Prop where
  begins : item.Begins s
  longest : ∀ other : Item, other.Begins s → other = item ∨ other.text.length < item.text.length

end Item

/-! ## What is cut off is an item -/

theorem exists_quotable_of_cutString {s : List Char} {r : List Char × List Char}
    (h : cutString s = some r) : ∃ inside, Quotable inside ∧ r.1 = inside ++ ['"'] := by
  fun_induction cutString s generalizing r with
  | case1 => simp at h
  | case2 => cases h; exact ⟨[], .nil, rfl⟩
  | case3 c rest ih =>
    obtain ⟨q, hq, rfl⟩ := Option.map_eq_some_iff.1 h
    obtain ⟨inside, hinside, hr⟩ := ih hq
    exact ⟨'\\' :: c :: inside, .escape c hinside, by simp [hr]⟩
  | case4 => simp at h
  | case5 c rest hquote hbackslash hlast ih =>
    obtain ⟨q, hq, rfl⟩ := Option.map_eq_some_iff.1 h
    obtain ⟨inside, hinside, hr⟩ := ih hq
    refine ⟨c :: inside, .plain (fun hc => hquote hc) (fun hc => ?_) hinside, by simp [hr]⟩
    cases rest with
    | nil => exact hlast hc rfl
    | cons d rest => exact hbackslash d rest hc rfl

theorem digits_takeWhile {c : Char} (rest : List Char) (h : c.isDigit = true) :
    Digits ((c :: rest).takeWhile Char.isDigit) :=
  ⟨by simp [h], fun _ => List.mem_takeWhile_imp⟩

theorem cutLiteral_admits {c : Char} (rest : List Char) (h : c.isDigit = true) :
    ItemSort.number.Admits (Number.cutLiteral (c :: rest)).1 := by
  have hwhole := digits_takeWhile rest h
  unfold Number.cutLiteral
  split
  · rename_i hnil
    exact absurd hnil hwhole.1
  · rename_i d digits hdigits
    rw [hdigits] at hwhole
    unfold Number.cutFraction
    split
    · rename_i e rest' _
      split
      · rename_i hd
        have hfraction := digits_takeWhile rest' hd
        rw [List.takeWhile_cons_of_pos hd] at hfraction
        exact .inr ⟨_, _, hwhole, hfraction, rfl⟩
      · exact .inl hwhole
    · exact .inl hwhole

theorem inLine_iff {c : Char} : inLine c = true ↔ c ≠ '\n' := by
  simp [inLine]

theorem cutComment_admits {s : List Char} {cut : Cut} (h : cutComment s = some cut) :
    cut.sort.Admits cut.text := by
  have hline (rest : List Char) : '\n' ∉ rest.takeWhile inLine :=
    fun hmem => inLine_iff.1 (List.mem_takeWhile_imp hmem) rfl
  unfold cutComment at h
  split at h
  · cases h; exact ⟨_, hline _, .inl rfl⟩
  · cases h; exact ⟨_, hline _, .inr rfl⟩
  · cases h

theorem isLayout_iff {c : Char} : isLayout c = true ↔ c ∈ [' ', '\t', '\r'] := by
  simp [isLayout, or_assoc]

theorem cutRun_admits {c : Char} {rest : List Char} {cut : Cut} (h : cutRun c rest = some cut) :
    cut.sort.Admits cut.text := by
  unfold cutRun at h
  split at h
  · rename_i hc
    cases h
    exact congrArg (fun c => [c]) hc
  split at h
  · rename_i hlayout
    cases h
    refine ⟨by simp, fun d hd => isLayout_iff.1 ?_⟩
    rcases List.mem_cons.1 hd with rfl | hd
    · exact hlayout
    · exact List.mem_takeWhile_imp hd
  split at h
  · rename_i hdigit
    cases h
    exact cutLiteral_admits rest hdigit
  split at h
  · rename_i hquote
    obtain ⟨r, hr, rfl⟩ := Option.map_eq_some_iff.1 h
    obtain ⟨inside, hinside, hr'⟩ := exists_quotable_of_cutString hr
    exact ⟨inside, hinside, by simp [hquote, hr']⟩
  split at h
  · rename_i hstart
    cases h
    exact ⟨c, _, hstart, fun _ => List.mem_takeWhile_imp, rfl⟩
  · cases h

theorem cutOperator_admits {s : List Char} {cut : Cut} (h : cutOperator s = some cut) :
    cut.sort.Admits cut.text := by
  unfold cutOperator at h
  split at h
  case h_5 c rest _ _ _ _ =>
    split at h
    · rename_i hsign
      cases h
      simp only [ItemSort.Admits, operatorTexts]
      simp only [List.contains_eq_mem, decide_eq_true_eq] at hsign
      simpa using hsign
    · cases h
  all_goals cases h
  all_goals simp [ItemSort.Admits, operatorTexts]

theorem cutPunctuation_admits {s : List Char} {cut : Cut} (h : cutPunctuation s = some cut) :
    cut.sort.Admits cut.text := by
  unfold cutPunctuation at h
  split at h
  · split at h
    · rename_i c rest hmark
      cases h
      exact ⟨c, by simpa [punctuationMarks] using hmark, rfl⟩
    · cases h
  · cases h

theorem cutItem?_admits {s : List Char} {cut : Cut} (h : cutItem? s = some cut) :
    cut.sort.Admits cut.text := by
  cases s with
  | nil => simp [cutItem?] at h
  | cons c rest =>
    simp only [cutItem?, Option.or_eq_some_iff] at h
    rcases h with h | ⟨_, h | ⟨_, h | ⟨_, h⟩⟩⟩
    · exact cutComment_admits h
    · exact cutRun_admits h
    · exact cutOperator_admits h
    · exact cutPunctuation_admits h

/-! ## An item is cut off, or a longer one -/

theorem cutString_of_quotable {inside : List Char} (h : Quotable inside) (rest : List Char) :
    cutString (inside ++ '"' :: rest) = some (inside ++ ['"'], rest) := by
  induction h with
  | nil => rfl
  | @plain c s hquote hbackslash _ ih =>
    rw [List.cons_append, cutString]
    · simp [ih]
    · exact hquote
    · exact fun _ _ hc _ => hbackslash hc
    · exact fun hc _ => hbackslash hc
  | escape c _ ih => simp [cutString, ih]

/-- Behind the characters that `dropWhile` drops stands none that would have been dropped. -/
theorem takeWhile_dropWhile_eq_nil (p : Char → Bool) (s : List Char) :
    (s.dropWhile p).takeWhile p = [] := by
  induction s with
  | nil => rfl
  | cons c s ih =>
    by_cases hc : p c = true
    · rw [List.dropWhile_cons_of_pos hc]; exact ih
    · rw [List.dropWhile_cons_of_neg hc, List.takeWhile_cons_of_neg hc]

theorem prefix_cutFraction (whole rest : List Char) :
    whole <+: (Number.cutFraction whole rest).1 := by
  unfold Number.cutFraction
  split
  · split
    · exact List.prefix_append _ _
    · exact List.prefix_rfl
  · exact List.prefix_rfl

theorem cutLiteral_of_digits {whole : List Char} (h : Digits whole) {rest : List Char}
    (hrest : rest.takeWhile Char.isDigit = []) :
    Number.cutLiteral (whole ++ rest) = Number.cutFraction whole rest := by
  obtain ⟨d, digits, rfl⟩ := List.exists_cons_of_ne_nil h.1
  have htake : (d :: digits ++ rest).takeWhile Char.isDigit = d :: digits := by
    rw [List.takeWhile_append_of_pos h.2, hrest, List.append_nil]
  have hdrop : (d :: digits ++ rest).dropWhile Char.isDigit = rest := by
    have hsplit := List.takeWhile_append_dropWhile (p := Char.isDigit) (l := d :: digits ++ rest)
    rw [htake] at hsplit
    exact List.append_cancel_left hsplit
  unfold Number.cutLiteral
  rw [htake, hdrop]

theorem prefix_cutLiteral {text : List Char} (h : ItemSort.number.Admits text)
    (rest : List Char) : text <+: (Number.cutLiteral (text ++ rest)).1 := by
  rcases h with h | ⟨whole, fraction, hwhole, hfraction, rfl⟩
  · -- further digits may follow, and a fraction behind them
    have hmore : Digits (text ++ rest.takeWhile Char.isDigit) :=
      ⟨by simp [h.1], fun c hc => (List.mem_append.1 hc).elim (h.2 c) List.mem_takeWhile_imp⟩
    have hcut := cutLiteral_of_digits hmore (takeWhile_dropWhile_eq_nil _ rest)
    rw [List.append_assoc, List.takeWhile_append_dropWhile] at hcut
    rw [hcut]
    exact (List.prefix_append _ _).trans (prefix_cutFraction _ _)
  · obtain ⟨d, digits, rfl⟩ := List.exists_cons_of_ne_nil hfraction.1
    obtain ⟨hd, hdigits⟩ := List.forall_mem_cons.1 hfraction.2
    rw [List.append_assoc, cutLiteral_of_digits hwhole (by simp)]
    simp only [List.cons_append, Number.cutFraction, hd, if_true]
    rw [List.takeWhile_append_of_pos hdigits]
    exact ⟨rest.takeWhile Char.isDigit, by simp⟩

theorem ItemSort.Admits.exists_digit {text : List Char} (h : ItemSort.number.Admits text) :
    ∃ c line, text = c :: line ∧ c.isDigit = true := by
  rcases h with h | ⟨whole, fraction, hwhole, -, rfl⟩
  · obtain ⟨c, line, rfl⟩ := List.exists_cons_of_ne_nil h.1
    exact ⟨c, line, rfl, h.2 c (by simp)⟩
  · obtain ⟨c, line, rfl⟩ := List.exists_cons_of_ne_nil hwhole.1
    exact ⟨c, _, rfl, hwhole.2 c (by simp)⟩

/-- Whether `cut` takes at least `item`: a longer one, or one of the same sort. -/
def Cut.Takes (cut : Cut) (item : Item) : Prop :=
  item.text <+: cut.text ∧ (cut.sort = item.sort ∨ item.text ≠ cut.text)

section Cuts

variable {c : Char} {text rest : List Char}

theorem cutItem?_of_cutRun {cut : Cut} (hhash : c ≠ '#') (hslash : c ≠ '/')
    (h : cutRun c rest = some cut) : cutItem? (c :: rest) = some cut := by
  have hcomment : cutComment (c :: rest) = none := by
    unfold cutComment
    split
    · rename_i heq
      exact absurd (List.cons.inj heq).1 hhash
    · rename_i heq
      exact absurd (List.cons.inj heq).1 hslash
    · rfl
  simp [cutItem?, hcomment, h]

/-- Layout goes on as long as blanks of the line follow. -/
theorem cutItem?_of_isLayout (hc : isLayout c = true) (rest : List Char) :
    cutItem? (c :: rest) =
      some ⟨.layout, c :: rest.takeWhile isLayout, rest.dropWhile isLayout⟩ := by
  have hne {d : Char} (hd : isLayout d = false) : c ≠ d := by
    rintro rfl
    rw [hc] at hd
    cases hd
  have hrun : cutRun c rest =
      some ⟨.layout, c :: rest.takeWhile isLayout, rest.dropWhile isLayout⟩ := by
    rw [cutRun, if_neg (hne (by decide)), if_pos hc]
  exact cutItem?_of_cutRun (hne (by decide)) (hne (by decide)) hrun

theorem takes_of_layout (h : ItemSort.layout.Admits text) (rest : List Char) :
    ∃ cut, cutItem? (text ++ rest) = some cut ∧ cut.Takes ⟨.layout, text⟩ := by
  obtain ⟨hne, hall⟩ := h
  obtain ⟨c, line, rfl⟩ := List.exists_cons_of_ne_nil hne
  obtain ⟨hc, hline⟩ := List.forall_mem_cons.1 hall
  refine ⟨_, cutItem?_of_isLayout (isLayout_iff.2 hc) (line ++ rest), ?_, .inl rfl⟩
  rw [List.takeWhile_append_of_pos fun d hd => isLayout_iff.2 (hline d hd)]
  exact List.prefix_append (c :: line) _

/-- A comment goes on to the end of its line. -/
theorem cutItem?_of_mark {mark : List Char} (hmark : mark = ['#'] ∨ mark = ['/', '/'])
    (rest : List Char) :
    cutItem? (mark ++ rest) =
      some ⟨.comment, mark ++ rest.takeWhile inLine, rest.dropWhile inLine⟩ := by
  rcases hmark with rfl | rfl <;> rfl

theorem takes_of_comment (h : ItemSort.comment.Admits text) (rest : List Char) :
    ∃ cut, cutItem? (text ++ rest) = some cut ∧ cut.Takes ⟨.comment, text⟩ := by
  obtain ⟨line, hline, htext⟩ := h
  obtain ⟨mark, hmark, rfl⟩ :
      ∃ mark, (mark = ['#'] ∨ mark = ['/', '/']) ∧ text = mark ++ line := by
    rcases htext with rfl | rfl
    · exact ⟨['#'], .inl rfl, rfl⟩
    · exact ⟨['/', '/'], .inr rfl, rfl⟩
  rw [List.append_assoc]
  refine ⟨_, cutItem?_of_mark hmark (line ++ rest), ?_, .inl rfl⟩
  rw [List.takeWhile_append_of_pos fun d hd => inLine_iff.2 (ne_of_mem_of_not_mem hd hline),
    ← List.append_assoc]
  exact List.prefix_append _ _

/-- A text that begins with a digit begins with a number, which `cutLiteral` cuts off. -/
theorem cutItem?_of_isDigit (hc : c.isDigit = true) (rest : List Char) :
    cutItem? (c :: rest) = some
      ⟨.number, (Number.cutLiteral (c :: rest)).1, (Number.cutLiteral (c :: rest)).2⟩ := by
  have hne {d : Char} (hd : d.isDigit = false) : c ≠ d := by rintro rfl; simp [hd] at hc
  have hlayout : isLayout c = false := by
    simp [isLayout, hne (d := ' ') rfl, hne (d := '\t') rfl, hne (d := '\r') rfl]
  have hrun : cutRun c rest = some
      ⟨.number, (Number.cutLiteral (c :: rest)).1, (Number.cutLiteral (c :: rest)).2⟩ := by
    simp [cutRun, hne (d := '\n') rfl, hlayout, hc]
  exact cutItem?_of_cutRun (hne rfl) (hne rfl) hrun

theorem takes_of_number (h : ItemSort.number.Admits text) (rest : List Char) :
    ∃ cut, cutItem? (text ++ rest) = some cut ∧ cut.Takes ⟨.number, text⟩ := by
  have hlongest := prefix_cutLiteral h rest
  obtain ⟨c, line, rfl, hc⟩ := h.exists_digit
  exact ⟨_, cutItem?_of_isDigit hc (line ++ rest), hlongest, .inl rfl⟩

theorem takes_of_string (h : ItemSort.string.Admits text) (rest : List Char) :
    ∃ cut, cutItem? (text ++ rest) = some cut ∧ cut.Takes ⟨.string, text⟩ := by
  obtain ⟨inside, hinside, rfl⟩ := h
  have hrun : cutRun '"' (inside ++ '"' :: rest) =
      some ⟨.string, '"' :: (inside ++ ['"']), rest⟩ := by
    have hclass : isLayout '"' = false ∧ '"'.isDigit = false := by decide
    simp [cutRun, hclass, cutString_of_quotable hinside]
  refine ⟨⟨.string, '"' :: (inside ++ ['"']), rest⟩, ?_, List.prefix_rfl, .inl rfl⟩
  rw [List.append_assoc]
  exact cutItem?_of_cutRun (by decide) (by decide) hrun

theorem isDigit_of_isWordStart (h : isWordStart c = true) : c.isDigit = false := by
  simp only [isWordStart, Bool.or_eq_true, decide_eq_true_eq] at h
  rcases h with h | rfl
  · grind [Char.isAlpha, Char.isUpper, Char.isLower, Char.isDigit]
  · rfl

/-- A word goes on as long as characters of words follow. -/
theorem cutItem?_of_word {line : List Char} (hc : isWordStart c = true)
    (hline : ∀ d ∈ line, Text.isWordPart d = true) (rest : List Char) :
    cutItem? (c :: line ++ rest) = some
      ⟨.word, c :: line ++ rest.takeWhile Text.isWordPart, rest.dropWhile Text.isWordPart⟩ := by
  have hne {d : Char} (hd : isWordStart d = false) : c ≠ d := by rintro rfl; simp [hd] at hc
  have hlayout : isLayout c = false := by
    simp [isLayout, hne (d := ' ') rfl, hne (d := '\t') rfl, hne (d := '\r') rfl]
  refine cutItem?_of_cutRun (hne rfl) (hne rfl) ?_
  simp [cutRun, hne (d := '\n') rfl, hne (d := '"') rfl, hlayout, isDigit_of_isWordStart hc, hc,
    List.takeWhile_append_of_pos hline, List.dropWhile_append_of_pos hline]

theorem takes_of_word (h : ItemSort.word.Admits text) (rest : List Char) :
    ∃ cut, cutItem? (text ++ rest) = some cut ∧ cut.Takes ⟨.word, text⟩ := by
  obtain ⟨c, line, hc, hline, rfl⟩ := h
  exact ⟨_, cutItem?_of_word hc hline rest, List.prefix_append _ _, .inl rfl⟩

/-- The operators of a single character. -/
def signs : List Char :=
  ['=', '<', '>', '!', '+', '-', '*', '/']

theorem cutRun_eq_none_of_mem_signs (h : c ∈ signs) (rest : List Char) : cutRun c rest = none := by
  simp only [signs, List.mem_cons, List.not_mem_nil, or_false] at h
  rcases h with rfl | rfl | rfl | rfl | rfl | rfl | rfl | rfl <;> rfl

theorem cutOperator_of_mem_signs (h : c ∈ signs) (rest : List Char) :
    ∃ cut, cutOperator (c :: rest) = some cut ∧ cut.sort = .operator ∧ [c] <+: cut.text := by
  have hsign : ['=', '<', '>', '+', '-', '*', '/', '!'].contains c = true := by
    simp only [signs, List.mem_cons, List.not_mem_nil, or_false] at h
    rcases h with rfl | rfl | rfl | rfl | rfl | rfl | rfl | rfl <;> rfl
  generalize hs : c :: rest = s
  fun_cases cutOperator s <;> cases hs
  case case6 => contradiction
  all_goals exact ⟨_, rfl, rfl, by simp⟩

/-- A sign, one of `signs`, is taken alone or with what follows it; only two slashes become a
    comment. -/
theorem takes_of_sign (h : c ∈ signs) (rest : List Char) :
    ∃ cut, cutItem? (c :: rest) = some cut ∧ cut.Takes ⟨.operator, [c]⟩ := by
  obtain ⟨cut, hcut, hsort, hprefix⟩ := cutOperator_of_mem_signs h rest
  cases hcomment : cutComment (c :: rest) with
  | none =>
    refine ⟨cut, ?_, hprefix, .inl hsort⟩
    simp [cutItem?, hcomment, cutRun_eq_none_of_mem_signs h, hcut]
  | some line =>
    refine ⟨line, by simp [cutItem?, hcomment], ?_⟩
    have hc : c ≠ '#' := by rintro rfl; simp [signs] at h
    unfold cutComment at hcomment
    split at hcomment
    · rename_i heq
      exact absurd (List.cons.inj heq).1 hc
    · rename_i heq
      cases heq
      cases hcomment
      exact ⟨by simp, .inr (by simp)⟩
    · cases hcomment

theorem takes_of_operator (h : ItemSort.operator.Admits text) (rest : List Char) :
    ∃ cut, cutItem? (text ++ rest) = some cut ∧ cut.Takes ⟨.operator, text⟩ := by
  have hcases : text ∈ [['=', '='], ['!', '='], ['<', '='], ['>', '=']] ∨
      ∃ c ∈ signs, text = [c] := by
    simp only [ItemSort.Admits, operatorTexts, List.mem_cons, List.not_mem_nil, or_false] at h
    simp only [signs, List.mem_cons, List.not_mem_nil, or_false, exists_eq_or_imp, exists_eq_left]
    tauto
  rcases hcases with hpair | ⟨c, hc, rfl⟩
  · refine ⟨⟨.operator, text, rest⟩, ?_, List.prefix_rfl, .inl rfl⟩
    simp only [List.mem_cons, List.not_mem_nil, or_false] at hpair
    rcases hpair with rfl | rfl | rfl | rfl <;> rfl
  · exact takes_of_sign hc rest

theorem takes_of_punctuation (h : ItemSort.punctuation.Admits text) (rest : List Char) :
    ∃ cut, cutItem? (text ++ rest) = some cut ∧ cut.Takes ⟨.punctuation, text⟩ := by
  obtain ⟨c, hc, rfl⟩ := h
  refine ⟨⟨.punctuation, [c], rest⟩, ?_, List.prefix_rfl, .inl rfl⟩
  simp only [punctuationMarks, List.mem_cons, List.not_mem_nil, or_false] at hc
  rcases hc with rfl | rfl | rfl | rfl | rfl | rfl <;> rfl

theorem takes_of_admits {sort : ItemSort} (h : sort.Admits text) (rest : List Char) :
    ∃ cut, cutItem? (text ++ rest) = some cut ∧ cut.Takes ⟨sort, text⟩ := by
  cases sort with
  | layout => exact takes_of_layout h rest
  | lineFeed =>
    cases (show text = ['\n'] from h)
    exact ⟨⟨.lineFeed, ['\n'], rest⟩, rfl, List.prefix_rfl, .inl rfl⟩
  | comment => exact takes_of_comment h rest
  | number => exact takes_of_number h rest
  | string => exact takes_of_string h rest
  | word => exact takes_of_word h rest
  | operator => exact takes_of_operator h rest
  | punctuation => exact takes_of_punctuation h rest

end Cuts

/-! ## The longest item is cut off -/

/-- The item that `cut` takes. -/
def Cut.item (cut : Cut) : Item :=
  ⟨cut.sort, cut.text⟩

/-- An item that a text begins with is no longer than the one that `cutItem?` cuts off, and the same
    if as long. -/
theorem exists_cutItem?_of_begins {item : Item} {s : List Char} (h : item.Begins s) :
    ∃ cut, cutItem? s = some cut ∧ (item = cut.item ∨ item.text.length < cut.text.length) := by
  obtain ⟨hadmits, rest, rfl⟩ := h
  obtain ⟨cut, hcut, hprefix, hsame⟩ := takes_of_admits hadmits rest
  refine ⟨cut, hcut, ?_⟩
  by_cases htext : item.text = cut.text
  · have hsort : item.sort = cut.sort := (hsame.resolve_right (absurd htext)).symm
    exact .inl (show (⟨item.sort, item.text⟩ : Item) = ⟨cut.sort, cut.text⟩ by rw [hsort, htext])
  · refine .inr (lt_of_le_of_ne hprefix.length_le fun hlength => htext ?_)
    exact hprefix.eq_of_length hlength

theorem longest_of_cutItem? {s : List Char} {cut : Cut} (h : cutItem? s = some cut) :
    cut.item.Longest s := by
  refine ⟨⟨cutItem?_admits h, cut.rest, (cutItem?_splits h).1⟩, fun other hother => ?_⟩
  obtain ⟨cut', hcut', hlongest⟩ := exists_cutItem?_of_begins hother
  cases Option.some.inj (h.symm.trans hcut')
  exact hlongest

/-- Where `cutItem?` cuts off no item, none begins the text. -/
theorem not_begins_of_cutItem? {s : List Char} (h : cutItem? s = none) (item : Item) :
    ¬item.Begins s := by
  intro hitem
  obtain ⟨cut, hcut, -⟩ := exists_cutItem?_of_begins hitem
  cases h.symm.trans hcut

end Scripting
