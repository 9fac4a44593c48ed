import Scripting.Proofs.Token.Spacing

set_option autoImplicit false

/-! # Texts between quotes

What stands between the quotes of a string is read twice: by `cutString` to find the quote that
closes it, and by `unescape` to tell what it stands for. Both readings take it apart in the same
places, so that a backslash never stands alone before the decoding. A text can therefore be written
between quotes in any of the ways there are, and is read back as it was. -/

namespace Scripting

/-! ## Decoding by pieces -/

/-- The pieces in which the inside of a string is decoded: a backslash with the character behind it,
    or a single character. -/
def pieces : List Char → List (List Char)
  | '\\' :: c :: rest => ['\\', c] :: pieces rest
  | c :: rest => [c] :: pieces rest
  | [] => []

/-- What a piece stands for. -/
def pieceMeaning : List Char → List Char
  | ['\\', c] =>
    match escapeMeaning? c with
    | some meaning => [meaning]
    | none => ['\\', c]
  | piece => piece

/-- To `unescape` the inside of a string is to decode its `pieces`. -/
theorem unescape_eq_flatMap (s : List Char) : unescape s = (pieces s).flatMap pieceMeaning := by
  fun_induction unescape s with
  | case1 c rest meaning hmeaning ih => simp [pieces, pieceMeaning, hmeaning, ih]
  | case2 c rest hmeaning ih => simp [pieces, pieceMeaning, hmeaning, ih]
  | case3 c rest hpair ih =>
    rw [pieces]
    · simp [pieceMeaning, ih]
    · exact hpair
  | case4 => rfl

theorem pieces_cons {c : Char} (hc : c ≠ '\\') (s : List Char) :
    pieces (c :: s) = [c] :: pieces s := by
  rw [pieces]
  exact fun _ _ hbackslash _ => hc hbackslash

/-- A text is `Quotable` if none of its `pieces` is a quote or a backslash alone. -/
theorem quotable_iff {s : List Char} :
    Quotable s ↔ ['"'] ∉ pieces s ∧ ['\\'] ∉ pieces s := by
  constructor
  · intro h
    induction h with
    | nil => simp [pieces]
    | plain hquote hbackslash _ ih =>
      simp [pieces_cons hbackslash, Ne.symm hquote, Ne.symm hbackslash, ih]
    | escape c _ ih => simp [pieces, ih]
  · rintro ⟨hquote, hbackslash⟩
    fun_induction pieces s with
    | case1 c rest ih =>
      simp only [List.mem_cons, not_or] at hquote hbackslash
      exact .escape c (ih hquote.2 hbackslash.2)
    | case2 c rest _ ih =>
      simp only [List.mem_cons, List.cons.injEq, and_true, not_or] at hquote hbackslash
      exact .plain (Ne.symm hquote.1) (Ne.symm hbackslash.1) (ih hquote.2 hbackslash.2)
    | case3 => exact .nil

/-! ## Ways of writing a text -/

/-- The characters that have a letter of their own behind a backslash. -/
def escapes : List (Char × Char) :=
  [('\n', 'n'), ('\t', 't'), ('\r', 'r'), ('\x00', '0'), ('"', '"'), ('\\', '\\')]

/-- Whether a text can be written in some way between quotes: each of its characters as it is, if it
    is no quote and no backslash, or as its letter behind a backslash, if it has one. -/
inductive Writes : List Char → List Char → Prop
  | nil : Writes [] []
  | plain {c : Char} {s written : List Char} (hquote : c ≠ '"') (hbackslash : c ≠ '\\')
    (h : Writes s written) : Writes (c :: s) (c :: written)
  | escape {c letter : Char} {s written : List Char} (hletter : (c, letter) ∈ escapes)
    (h : Writes s written) : Writes (c :: s) ('\\' :: letter :: written)

theorem escapeMeaning?_of_mem {c letter : Char} (h : (c, letter) ∈ escapes) :
    escapeMeaning? letter = some c := by
  simp only [escapes, List.mem_cons, Prod.mk.injEq, List.not_mem_nil, or_false] at h
  rcases h with ⟨rfl, rfl⟩ | ⟨rfl, rfl⟩ | ⟨rfl, rfl⟩ | ⟨rfl, rfl⟩ | ⟨rfl, rfl⟩ | ⟨rfl, rfl⟩ <;> rfl

namespace Writes

variable {s written : List Char}

theorem quotable (h : Writes s written) : Quotable written := by
  induction h with
  | nil => exact .nil
  | plain hquote hbackslash _ ih => exact .plain hquote hbackslash ih
  | escape _ _ ih => exact .escape _ ih

/-- What is `written` in any way is read back by `unescape`. -/
theorem unescape_eq (h : Writes s written) : unescape written = s := by
  induction h with
  | nil => rfl
  | plain hquote hbackslash _ ih =>
    rw [unescape, ih]
    exact fun _ _ hc _ => hbackslash hc
  | escape hletter _ ih => rw [unescape, escapeMeaning?_of_mem hletter, ih]

/-- Every text can be written. -/
theorem exists_of (s : List Char) : ∃ written, Writes s written := by
  induction s with
  | nil => exact ⟨[], .nil⟩
  | cons c s ih =>
    obtain ⟨written, h⟩ := ih
    by_cases hquote : c = '"'
    · subst hquote
      have hletter : ('"', '"') ∈ escapes := by decide
      exact ⟨_, .escape hletter h⟩
    by_cases hbackslash : c = '\\'
    · subst hbackslash
      have hletter : ('\\', '\\') ∈ escapes := by decide
      exact ⟨_, .escape hletter h⟩
    exact ⟨_, .plain hquote hbackslash h⟩

end Writes

/-! ## Strings in a source -/

/-- The text `inside` between quotes. -/
def quoted (inside : List Char) : List Char :=
  '"' :: inside ++ ['"']

theorem stringValue_quoted (inside : List Char) :
    stringValue (quoted inside) = String.ofList (unescape inside) := by
  simp [stringValue, quoted]

/-- A `Quotable` text between quotes is one string, and nothing is left behind it. -/
theorem cutItem?_quoted {inside : List Char} (h : Quotable inside) :
    cutItem? (quoted inside) = some ⟨.string, quoted inside, []⟩ := by
  have hadmits : ItemSort.string.Admits (quoted inside) := ⟨inside, h, rfl⟩
  have hnothing : Detached [] := by simp [Detached]
  have hcut := cutItem?_of_admits hadmits rfl hnothing
  rwa [List.append_nil] at hcut

theorem tokenize_quoted {inside : List Char} (h : Quotable inside) :
    tokenize (String.ofList (quoted inside)) =
      .ok [⟨.string, String.ofList (quoted inside), .str (String.ofList (unescape inside)), .start⟩,
        Token.endAt (Position.start.after (quoted inside))] := by
  have hscan : scan (String.ofList (quoted inside)) =
      ⟨[⟨.string, String.ofList (quoted inside), .str (stringValue (quoted inside)), .start⟩,
        Token.endAt (Position.start.after (quoted inside))], none⟩ := by
    rw [scan, String.toList_ofList, scanFrom_of_cutItem? (cutItem?_quoted h), scanFrom]
    rfl
  rw [tokenize_eq_ok, hscan, stringValue_quoted]
  exact ⟨rfl, rfl⟩

/-- Only strings give tokens of their kind. -/
theorem Cut.string_of_token? {cut : Cut} {p : Position} {t : Token} (h : cut.token? p = some t)
    (hkind : t.kind = .string) :
    cut.sort = .string ∧ t.lexeme = String.ofList cut.text ∧
      t.value = .str (stringValue cut.text) := by
  obtain ⟨sort, text, rest⟩ := cut
  cases sort with
  | layout => cases h
  | lineFeed => cases h
  | comment => cases h
  | string => cases h; exact ⟨rfl, rfl, rfl⟩
  | word =>
    cases h
    simp only at hkind
    split at hkind <;> cases hkind
  | _ => cases h; cases hkind

/-- Every string that `scan` finds stands between its quotes, and what it stands for is what
    `unescape` decodes between them. -/
theorem exists_quotable_of_scan {source : String} :
    ∀ t ∈ (scan source).tokens, t.kind = .string → ∃ inside, Quotable inside ∧
      t.lexeme = String.ofList (quoted inside) ∧
      t.value = .str (String.ofList (unescape inside)) := by
  refine scanFrom_forall ?_ (fun _ => nofun) (Position.start_begins source.toList) (by simp)
  intro cut p t hcut _ ht hkind
  obtain ⟨hsort, hlexeme, hvalue⟩ := cut.string_of_token? ht hkind
  have hadmits := cutItem?_admits hcut
  rw [hsort] at hadmits
  obtain ⟨inside, hinside, htext⟩ := hadmits
  have htext : cut.text = quoted inside := htext
  rw [htext] at hlexeme
  rw [htext, stringValue_quoted] at hvalue
  exact ⟨inside, hinside, hlexeme, hvalue⟩

/-- Every text can be written between quotes, and whichever way it is `written`, it is the only
    token of the source it makes and is read back as it was. No string that is found anywhere makes
    its decoding meet a backslash alone. -/
theorem strings_written_read :
    (∀ s : String, ∃ written, Writes s.toList written) ∧
      (∀ (s : String) (written : List Char), Writes s.toList written →
        tokenize (String.ofList (quoted written)) =
          .ok [⟨.string, String.ofList (quoted written), .str s, .start⟩,
            Token.endAt (Position.start.after (quoted written))]) ∧
      ∀ source, ∀ t ∈ (scan source).tokens, t.kind = .string →
        ∃ inside, t.lexeme = String.ofList (quoted inside) ∧
          t.value = .str (String.ofList ((pieces inside).flatMap pieceMeaning)) ∧
          ['\\'] ∉ pieces inside := by
  refine ⟨fun s => Writes.exists_of s.toList, fun s written h => ?_, fun source t ht hkind => ?_⟩
  · rw [tokenize_quoted h.quotable, h.unescape_eq, String.ofList_toList]
  · obtain ⟨inside, hinside, hlexeme, hvalue⟩ := exists_quotable_of_scan t ht hkind
    rw [unescape_eq_flatMap] at hvalue
    exact ⟨inside, hlexeme, hvalue, (quotable_iff.1 hinside).2⟩

/-- A text with a quote, backslashes, a line feed and the mark of a comment. -/
theorem strings_written_read_of_backslashes :
    let s := "#\\\"\n\\λ"
    let written := ['#', '\\', '\\', '\\', '"', '\n', '\\', '\\', 'λ']
    let source := "\"#\\\\\\\"\n\\\\λ\""
    let t : Token := ⟨.string, source, .str s, .start⟩
    Writes s.toList written ∧ tokenize source = .ok [t, Token.endAt ⟨2, 5⟩] ∧
      ∃ inside, t.lexeme = String.ofList (quoted inside) ∧
        t.value = .str (String.ofList ((pieces inside).flatMap pieceMeaning)) ∧
        ['\\'] ∉ pieces inside := by
  intro s written source t
  have hs : s.toList = ['#', '\\', '"', '\n', '\\', 'λ'] := by decide +kernel
  have hwrites : Writes s.toList written := by
    rw [hs]
    refine .plain (by decide) (by decide) (.escape (by decide) (.escape (by decide) ?_))
    refine .plain (by decide) (by decide) (.escape (by decide) ?_)
    exact .plain (by decide) (by decide) .nil
  have hsource : String.ofList (quoted written) = source := by decide +kernel
  have hend : Position.start.after (quoted written) = ⟨2, 5⟩ := by decide +kernel
  have hread := strings_written_read.2.1 s written hwrites
  rw [hsource, hend] at hread
  have hfound : t ∈ (scan source).tokens := by
    rw [(tokenize_eq_ok.1 hread).2]
    exact List.mem_cons_self
  exact ⟨hwrites, hread, strings_written_read.2.2 source t hfound rfl⟩

end Scripting
