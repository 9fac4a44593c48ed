import Scripting.Proofs.Token.LongestItem

set_option autoImplicit false

/-! # Sources are cut into their longest items

A source is cut from left to right, each time the `Longest` item that begins what is left, until it
is used up or no item begins the rest. The items that are more than a gap between others give the
tokens, one each and in order, at the positions where they begin. -/

namespace Scripting

/-! ## What a scan has to come to -/

/-- The position behind the text `before`: its line is one more than the line feeds there, its
    column one more than the characters behind the last of them. -/
def Position.behind (before : List Char) : Position :=
  ⟨before.count '\n' + 1, (before.reverse.takeWhile inLine).length + 1⟩

namespace Item

/-- The kind of token that `item` gives. A gap between others gives none, and a word is a keyword
    just if it is one of the reserved ones. -/
def kind? (item : Item) : Option TokenKind :=
  match item.sort with
  | .layout | .lineFeed | .comment => none
  | .number => some .number
  | .string => some .string
  | .word => some (if keywords.contains (String.ofList item.text) then .keyword else .identifier)
  | .operator => some .operator
  | .punctuation => some .punctuation

/-- The text of `items` one behind the other. -/
def joined (items : List Item) : List Char :=
  items.flatMap Item.text

/-- Whether a text is cut into items, each the `Longest` that begins what is left, up to a rest that
    no item begins. -/
inductive Cover : List Item → List Char → List Char → Prop
  | stop {s : List Char} (h : ∀ item : Item, ¬item.Begins s) : Cover [] s s
  | cut {item : Item} {items : List Item} {s rest : List Char}
    (h : item.Longest (item.text ++ s)) (hrest : Cover items s rest) :
    Cover (item :: items) (item.text ++ s) rest

/-- Whether tokens are those of items that begin behind the text `before`. -/
inductive Tokens : List Char → List Item → List Token → Prop
  | nil (before : List Char) : Tokens before [] []
  | gap {before : List Char} {item : Item} {items : List Item} {tokens : List Token}
    (h : item.kind? = none) (hrest : Tokens (before ++ item.text) items tokens) :
    Tokens before (item :: items) tokens
  | token {before : List Char} {item : Item} {items : List Item} {t : Token} {tokens : List Token}
    (hkind : item.kind? = some t.kind) (hlexeme : t.lexeme = String.ofList item.text)
    (hposition : t.position = .behind before)
    (hrest : Tokens (before ++ item.text) items tokens) :
    Tokens before (item :: items) (t :: tokens)

end Item

/-- The scan that finds `tokens` in the text `before` and has a rest left: the end of input is
    marked behind the last of them, or the first character of the rest is at fault. -/
def Scan.upTo (tokens : List Token) (before : List Char) : List Char → Scan
  | [] => ⟨tokens ++ [Token.endAt (.behind before)], none⟩
  | c :: _ =>
    let cause := if c = '"' then .unterminatedString else .invalidCharacter c.toString
    ⟨tokens, some (.located cause (.behind before))⟩

/-! ## The scan comes to it -/

theorem Position.start_after (before : List Char) : start.after before = behind before := by
  induction before using List.reverseRecOn with
  | nil => rfl
  | append_singleton before c ih =>
    rw [after_append, ih]
    by_cases hc : c = '\n'
    · simp [behind, next, hc, List.takeWhile_cons_of_neg, inLine]
    · have hin : inLine c = true := inLine_iff.2 hc
      simp [behind, next, hc, List.takeWhile_cons_of_pos hin]

theorem Cut.token?_eq (cut : Cut) (p : Position) :
    match cut.item.kind? with
    | none => cut.token? p = none
    | some kind => ∃ value, cut.token? p = some ⟨kind, String.ofList cut.text, value, p⟩ := by
  obtain ⟨sort, text, rest⟩ := cut
  cases sort with
  | layout => rfl
  | lineFeed => rfl
  | comment => rfl
  | _ => exact ⟨_, rfl⟩

theorem Item.kind?_ne_endOfInput (item : Item) : item.kind? ≠ some .endOfInput := by
  obtain ⟨sort, text⟩ := item
  cases sort with
  | word => simp only [kind?]; split <;> simp
  | _ => simp [kind?]

/-- No token of an item is an end of input. -/
theorem Item.Tokens.isEnd_eq_false {before : List Char} {items : List Item} {tokens : List Token}
    (h : Tokens before items tokens) : ∀ t ∈ tokens, t.isEnd = false := by
  induction h with
  | nil => simp
  | gap _ _ ih => exact ih
  | @token _ item _ t _ hkind _ _ _ ih =>
    refine List.forall_mem_cons.2 ⟨?_, ih⟩
    simp only [Token.isEnd, decide_eq_false_iff_not]
    exact fun hend => item.kind?_ne_endOfInput (hend ▸ hkind)

theorem Item.Cover.joined_append {items : List Item} {s rest : List Char}
    (h : Cover items s rest) : joined items ++ rest = s := by
  induction h with
  | stop => rfl
  | @cut item items s rest _ _ ih =>
    rw [joined, List.flatMap_cons, List.append_assoc, ← ih]
    rfl

/-- The item of `cut`, and the tokens of the text behind it, as those of the whole text. -/
theorem Item.Tokens.of_cut {before : List Char} {cut : Cut} {items : List Item}
    {tokens : List Token} (h : Tokens (before ++ cut.text) items tokens) :
    Tokens before (cut.item :: items) ((cut.token? (.behind before)).toList ++ tokens) := by
  have hcut := cut.token?_eq (.behind before)
  cases hkind : cut.item.kind? with
  | none =>
    rw [hkind] at hcut
    rw [show cut.token? _ = none from hcut]
    exact .gap hkind h
  | some kind =>
    rw [hkind] at hcut
    obtain ⟨value, htoken⟩ := hcut
    rw [htoken]
    exact .token hkind rfl rfl h

theorem scanFrom_eq_upTo {done : List Token} {p : Position} {before s : List Char}
    (hp : p = .behind before) :
    ∃ items rest tokens, Item.Cover items s rest ∧ Item.Tokens before items tokens ∧
      scanFrom done p s = .upTo (done.reverse ++ tokens) (before ++ Item.joined items) rest := by
  fun_induction scanFrom done p s generalizing before with
  | case1 done p s cut hcut ih =>
    subst hp
    have hbehind : (Position.behind before).after cut.text = .behind (before ++ cut.text) := by
      rw [← Position.start_after, ← Position.after_append, Position.start_after]
    obtain ⟨items, rest, tokens, hcover, htokens, hscan⟩ := ih hbehind
    obtain ⟨happ, -⟩ := cutItem?_splits hcut
    refine ⟨cut.item :: items, rest, _, ?_, htokens.of_cut, ?_⟩
    · rw [← happ]
      exact .cut (happ ▸ longest_of_cutItem? hcut) hcover
    · rw [hscan]
      cases cut.token? (.behind before) <;> simp [Item.joined, Cut.item]
  | case2 done p =>
    subst hp
    exact ⟨[], [], [], .stop (not_begins_of_cutItem? rfl), .nil before, by
      simp [Scan.upTo, Item.joined]⟩
  | case3 done p c rest hcut =>
    subst hp
    refine ⟨[], c :: rest, [], .stop (not_begins_of_cutItem? hcut), .nil before, ?_⟩
    simp only [Scan.upTo, Item.joined, strayCharacter]
    split <;> simp

/-- The text `source` is cut into its longest items, its `Cover`. Those that are no gap give the
    tokens, with the end of input behind them, or a fault at the first character that no item begins
    at. -/
theorem scan_cuts_longest (source : String) :
    ∃ items rest tokens, Item.Cover items source.toList rest ∧
      Item.joined items ++ rest = source.toList ∧ Item.Tokens [] items tokens ∧
      (∀ t ∈ tokens, t.isEnd = false) ∧
      scan source = .upTo tokens (Item.joined items) rest := by
  obtain ⟨items, rest, tokens, hcover, htokens, hscan⟩ :=
    @scanFrom_eq_upTo [] .start [] source.toList rfl
  exact ⟨items, rest, tokens, hcover, hcover.joined_append, htokens, htokens.isEnd_eq_false, hscan⟩

end Scripting
