import Scripting.Proofs.Token.LongestItem

set_option autoImplicit false

/-! # Tokens and the gaps between them

Between its tokens a text has a `Gap`, of blanks and of comments with the line feed that ends each.
A gap is scanned over and leaves no trace. A token that has a blank or nothing behind it is cut off
just as it stands, whatever follows: no sort of item that gives tokens has a blank in its texts, but
for strings, which end at their quotes, and comments begin with no token. So the tokens of a text
may be set apart by any gaps, as long as each gap begins with a blank. -/

namespace Scripting

/-! ## Gaps -/

/-- The blanks that separate tokens, on a line or at its end. -/
def blanks : List Char :=
  [' ', '\t', '\r', '\n']

/-- Whether a text can stand between tokens: blanks, and comments with the line feeds that end
    them. -/
inductive Gap : List Char → Prop
  | nil : Gap []
  | blank {c : Char} {s : List Char} (hc : c ∈ blanks) (h : Gap s) : Gap (c :: s)
  | comment {mark line s : List Char} (hmark : mark = ['#'] ∨ mark = ['/', '/'])
      (hline : '\n' ∉ line) (h : Gap s) : Gap (mark ++ line ++ '\n' :: s)

/-- Whether the text `s`, if there is any of it, begins with a blank. -/
def Detached (s : List Char) : Prop :=
  ∀ c ∈ s.head?, c ∈ blanks

section Gaps

variable {done : List Token} {p : Position} {c : Char} {s : List Char}

/-- One blank of a line makes no difference to what `scanFrom` finds behind it. -/
theorem scanFrom_layout_cons (hc : isLayout c = true) :
    scanFrom done p (c :: s) = scanFrom done (p.next c) s := by
  rw [scanFrom_of_cutItem? (cutItem?_of_isLayout hc s)]
  show scanFrom done ((p.next c).after (s.takeWhile isLayout)) (s.dropWhile isLayout) = _
  cases s with
  | nil => rfl
  | cons d s =>
    by_cases hd : isLayout d = true
    · rw [scanFrom_of_cutItem? (cutItem?_of_isLayout hd s), List.takeWhile_cons_of_pos hd,
        List.dropWhile_cons_of_pos hd]
      rfl
    · rw [List.takeWhile_cons_of_neg hd, List.dropWhile_cons_of_neg hd]
      rfl

theorem scanFrom_lineFeed_cons :
    scanFrom done p ('\n' :: s) = scanFrom done (p.next '\n') s := by
  have hcut : cutItem? ('\n' :: s) = some ⟨.lineFeed, ['\n'], s⟩ := rfl
  exact scanFrom_of_cutItem? hcut done p

theorem scanFrom_blank_cons (hc : c ∈ blanks) :
    scanFrom done p (c :: s) = scanFrom done (p.next c) s := by
  by_cases hbreak : c = '\n'
  · subst hbreak
    exact scanFrom_lineFeed_cons
  · refine scanFrom_layout_cons (isLayout_iff.2 ?_)
    simpa [blanks, hbreak] using hc

theorem scanFrom_comment_append {mark line : List Char} (hmark : mark = ['#'] ∨ mark = ['/', '/'])
    (hline : '\n' ∉ line) :
    scanFrom done p (mark ++ line ++ '\n' :: s) =
      scanFrom done (p.after (mark ++ line)) ('\n' :: s) := by
  have htake : (line ++ '\n' :: s).takeWhile inLine = line := by
    rw [List.takeWhile_append_of_pos fun d hd => inLine_iff.2 (ne_of_mem_of_not_mem hd hline)]
    simp [inLine]
  have hdrop : (line ++ '\n' :: s).dropWhile inLine = '\n' :: s := by
    rw [List.dropWhile_append_of_pos fun d hd => inLine_iff.2 (ne_of_mem_of_not_mem hd hline)]
    simp [inLine]
  have hcut : cutItem? (mark ++ line ++ '\n' :: s) = some ⟨.comment, mark ++ line, '\n' :: s⟩ := by
    rw [List.append_assoc, cutItem?_of_mark hmark, htake, hdrop]
  exact scanFrom_of_cutItem? hcut done p

/-- A `gap` is scanned over. -/
theorem Gap.scanFrom_append {gap : List Char} (h : Gap gap) (done : List Token) (p : Position)
    (s : List Char) : scanFrom done p (gap ++ s) = scanFrom done (p.after gap) s := by
  induction h generalizing p with
  | nil => rfl
  | blank hc _ ih =>
    rw [List.cons_append, scanFrom_blank_cons hc, ih]
    rfl
  | @comment mark line gap hmark hline _ ih =>
    rw [List.append_assoc, List.cons_append, scanFrom_comment_append hmark hline,
      scanFrom_lineFeed_cons, ih, Position.after_append _ (mark ++ line), Position.after_cons]

end Gaps

/-! ## Items that give tokens -/

/-- What stands between quotes ends at the first one. -/
theorem Quotable.eq_nil_of_append {inside inside' more : List Char} (h : Quotable inside)
    (h' : Quotable inside') (heq : inside ++ '"' :: more = inside' ++ ['"']) : more = [] := by
  have hcut := cutString_of_quotable h more
  rw [heq, cutString_of_quotable h' []] at hcut
  exact (Prod.mk.inj (Option.some.inj hcut)).2.symm

namespace ItemSort

/-- Whether items of a sort are gaps between tokens. -/
def separates : ItemSort → Bool
  | .layout | .lineFeed | .comment => true
  | _ => false

variable {sort sort' : ItemSort} {text : List Char}

/-- What an item that gives a token begins with, if its sort does not `separates`: no blank and no
    hash, a quote only if it is a string, and a slash only if it is nothing more than this. -/
theorem Admits.exists_cons (h : sort.Admits text) (hsort : sort.separates = false) :
    ∃ c rest, text = c :: rest ∧ c ∉ blanks ∧ c ≠ '#' ∧ (c = '"' → sort = .string) ∧
      (c = '/' → rest = []) := by
  -- a class of characters that leaves out all that is excluded
  have hclass {c : Char} {p : Char → Bool} (hc : p c = true)
      (hp : ∀ d ∈ '#' :: '"' :: '/' :: blanks, p d = false) :
      c ∉ blanks ∧ c ≠ '#' ∧ c ≠ '"' ∧ c ≠ '/' := by
    have hne : c ∉ '#' :: '"' :: '/' :: blanks := fun hmem => by
      rw [hp c hmem] at hc
      cases hc
    simp only [List.mem_cons, not_or] at hne
    exact ⟨hne.2.2.2, hne.1, hne.2.1, hne.2.2.1⟩
  cases sort with
  | layout => cases hsort
  | lineFeed => cases hsort
  | comment => cases hsort
  | number =>
    obtain ⟨c, rest, rfl, hc⟩ := h.exists_digit
    obtain ⟨hblank, hhash, hquote, hslash⟩ := hclass hc (by simp [blanks])
    exact ⟨c, rest, rfl, hblank, hhash, (absurd · hquote), (absurd · hslash)⟩
  | string =>
    obtain ⟨inside, -, rfl⟩ := h
    exact ⟨'"', _, rfl, by decide, by decide, fun _ => rfl, (absurd · (by decide))⟩
  | word =>
    obtain ⟨c, rest, hc, -, rfl⟩ := h
    obtain ⟨hblank, hhash, hquote, hslash⟩ := hclass hc (by simp [blanks, isWordStart])
    exact ⟨c, rest, rfl, hblank, hhash, (absurd · hquote), (absurd · hslash)⟩
  | operator =>
    simp only [Admits, operatorTexts, List.mem_cons, List.not_mem_nil, or_false] at h
    rcases h with rfl | rfl | rfl | rfl | rfl | rfl | rfl | rfl | rfl | rfl | rfl | rfl <;>
      exact ⟨_, _, rfl, by decide, by decide, by decide, by decide⟩
  | punctuation =>
    obtain ⟨c, hc, rfl⟩ := h
    simp only [punctuationMarks, List.mem_cons, List.not_mem_nil, or_false] at hc
    rcases hc with rfl | rfl | rfl | rfl | rfl | rfl <;>
      exact ⟨_, _, rfl, by decide, by decide, by decide, by decide⟩

/-- No blank stands in an item that gives a token, but for strings. -/
theorem Admits.notMem_of_blank (h : sort.Admits text) (hsort : sort.separates = false)
    (hstring : sort ≠ .string) {d : Char} (hd : d ∈ blanks) : d ∉ text := by
  intro hmem
  cases sort with
  | layout => cases hsort
  | lineFeed => cases hsort
  | comment => cases hsort
  | string => exact hstring rfl
  | number =>
    have hblank : ∀ d ∈ blanks, d.isDigit = false ∧ d ≠ '.' := by simp [blanks]
    obtain ⟨hdigit, hpoint⟩ := hblank d hd
    have hnot {digits : List Char} (hdigits : Digits digits) : d ∉ digits := fun hmem => by
      rw [hdigits.2 d hmem] at hdigit
      cases hdigit
    rcases h with h | ⟨whole, fraction, hwhole, hfraction, rfl⟩
    · exact hnot h hmem
    · rcases List.mem_append.1 hmem with hmem | hmem
      · exact hnot hwhole hmem
      · rcases List.mem_cons.1 hmem with hmem | hmem
        · exact hpoint hmem
        · exact hnot hfraction hmem
  | word =>
    have hblank : ∀ d ∈ blanks, isWordStart d = false ∧ Text.isWordPart d = false := by
      simp [blanks, isWordStart, Text.isWordPart]
    obtain ⟨hstart, hpart⟩ := hblank d hd
    obtain ⟨c, rest, hc, hrest, rfl⟩ := h
    rcases List.mem_cons.1 hmem with rfl | hmem
    · rw [hc] at hstart
      cases hstart
    · rw [hrest d hmem] at hpart
      cases hpart
  | operator =>
    have hnot : ∀ text ∈ operatorTexts, ∀ d ∈ blanks, d ∉ text := by
      simp [operatorTexts, blanks]
    exact hnot text h d hd hmem
  | punctuation =>
    have hnot : ∀ c ∈ punctuationMarks, c ∉ blanks := by simp [punctuationMarks, blanks]
    obtain ⟨c, hc, rfl⟩ := h
    rw [List.mem_singleton] at hmem
    exact hnot c hc (hmem ▸ hd)

/-- With a blank `d` behind it, a token is no beginning of an item. -/
theorem Admits.not_admits_append (h : sort.Admits text) (hsort : sort.separates = false) {d : Char}
    (hd : d ∈ blanks) (more : List Char) : ¬sort'.Admits (text ++ d :: more) := by
  intro hadmits
  obtain ⟨c, rest, rfl, hblank, hhash, hquote, hslash⟩ := h.exists_cons hsort
  cases sort' with
  | layout =>
    have hlayout : ∀ c ∈ [' ', '\t', '\r'], c ∈ blanks := by simp [blanks]
    exact hblank (hlayout c (hadmits.2 c (by simp)))
  | lineFeed =>
    obtain ⟨-, hnil⟩ := List.cons.inj (show c :: (rest ++ d :: more) = ['\n'] from hadmits)
    simp at hnil
  | comment =>
    obtain ⟨line, -, heq | heq⟩ := hadmits
    · exact hhash (List.cons.inj heq).1
    · obtain ⟨hc, heq⟩ := List.cons.inj (show c :: (rest ++ d :: more) = _ from heq)
      rw [hslash hc] at heq
      obtain rfl := (List.cons.inj heq).1
      exact absurd hd (by decide)
  | string =>
    obtain ⟨inside', hinside', heq⟩ := hadmits
    obtain ⟨hc, heq⟩ := List.cons.inj (show c :: (rest ++ d :: more) = _ from heq)
    obtain rfl := hquote hc
    obtain ⟨inside, hinside, htext⟩ := h
    obtain ⟨-, rfl⟩ := List.cons.inj (show c :: rest = '"' :: (inside ++ ['"']) from htext)
    rw [List.append_assoc] at heq
    exact absurd (hinside.eq_nil_of_append hinside' heq) (by simp)
  | number | word | operator | punctuation =>
    exact hadmits.notMem_of_blank rfl (by decide) hd (by simp)

end ItemSort

/-- A token that has a blank or nothing behind it is cut off by `cutItem?` as it stands. -/
theorem cutItem?_of_admits {sort : ItemSort} {text rest : List Char} (h : sort.Admits text)
    (hsort : sort.separates = false) (hrest : Detached rest) :
    cutItem? (text ++ rest) = some ⟨sort, text, rest⟩ := by
  obtain ⟨cut, hcut, ⟨more, hmore⟩, hsame⟩ := takes_of_admits h rest
  obtain ⟨happ, -⟩ := cutItem?_splits hcut
  cases more with
  | nil =>
    rw [List.append_nil] at hmore
    have hcutsort : cut.sort = sort := hsame.resolve_right (absurd hmore)
    obtain ⟨cutsort, cuttext, cutrest⟩ := cut
    obtain rfl : text = cuttext := hmore
    obtain rfl : cutsort = sort := hcutsort
    rw [hcut, List.append_cancel_left (show text ++ cutrest = text ++ rest from happ)]
  | cons d more =>
    rw [← hmore, List.append_assoc, List.append_cancel_left_eq] at happ
    have hd : d ∈ blanks := hrest d (by rw [← happ]; rfl)
    have hadmits := cutItem?_admits hcut
    rw [← hmore] at hadmits
    exact (h.not_admits_append hsort hd more hadmits).elim

/-! ## Tokens set apart -/

namespace Token

/-- What the token `t` is, wherever it stands. -/
def content (t : Token) : TokenKind × String × Value :=
  (t.kind, t.lexeme, t.value)

/-- Whether the token `t` is the one that an item of the `sort` gives. -/
structure IsOf (t : Token) (sort : ItemSort) : Prop where
  gives : sort.separates = false
  admits : sort.Admits t.lexeme.toList
  token? : ∀ rest p, Cut.token? ⟨sort, t.lexeme.toList, rest⟩ p = some { t with position := p }

end Token

theorem Cut.isOf_of_token? {cut : Cut} {p : Position} {t : Token}
    (hcut : cutItem? (cut.text ++ cut.rest) = some cut) (h : cut.token? p = some t) :
    t.IsOf cut.sort := by
  have hlexeme : t.lexeme.toList = cut.text := by
    rw [(token?_eq_some h).2.1, String.toList_ofList]
  constructor
  · cases hsort : cut.sort <;> simp [token?, hsort] at h <;> rfl
  · rw [hlexeme]
    exact cutItem?_admits hcut
  · intro rest q
    have hplaced := cut.token?_placed (fun _ => q) p
    rw [h] at hplaced
    rw [hlexeme]
    exact hplaced

/-- The tokens of a source before its end are those of items, as `IsOf` tells. -/
theorem exists_isOf_of_tokenize {source : String} {tokens : List Token} {last : Token}
    (h : tokenize source = .ok (tokens ++ [last])) :
    (∃ p, last = Token.endAt p) ∧ ∀ t ∈ tokens, ∃ sort, t.IsOf sort := by
  obtain ⟨found, p, hfound, hopen, -⟩ := scan_append_lineFeed h
  obtain ⟨rfl, hlast⟩ := List.append_inj' hfound rfl
  refine ⟨⟨p, (List.cons.inj hlast).1⟩, fun t ht => ?_⟩
  have hall : ∀ t ∈ tokens ++ [last], t.isEnd = true ∨ ∃ sort, t.IsOf sort := by
    rw [← (tokenize_eq_ok.1 h).2]
    exact scanFrom_forall (fun hcut _ ht => .inr ⟨_, Cut.isOf_of_token? hcut ht⟩)
      (fun _ => .inl rfl) (Position.start_begins _) (by simp)
  refine (hall t (List.mem_append_left _ ht)).resolve_left fun hend => ?_
  rw [hopen t ht] at hend
  cases hend

/-- The texts of tokens, each with the gap that is paired with it behind it. -/
def spaced : List (Token × List Char) → List Char
  | [] => []
  | (t, gap) :: rest => t.lexeme.toList ++ (gap ++ spaced rest)

/-- Tokens with gaps behind them are found again by `scanFrom` if each gap begins with a blank, but
    for the last one, which may be empty. -/
theorem scanFrom_spaced {pairs : List (Token × List Char)}
    (hitems : ∀ pair ∈ pairs, ∃ sort, pair.1.IsOf sort)
    (hgaps : ∀ pair ∈ pairs, Gap pair.2 ∧ Detached pair.2)
    (hapart : ∀ pair ∈ pairs.dropLast, pair.2 ≠ []) (done : List Token) (p : Position) :
    ∃ found q, scanFrom done p (spaced pairs) =
        ⟨done.reverse ++ (found ++ [Token.endAt q]), none⟩ ∧
      found.map Token.content = pairs.map fun pair => pair.1.content := by
  induction pairs generalizing done p with
  | nil =>
    refine ⟨[], p, ?_, rfl⟩
    rw [spaced, scanFrom]
    simp [cutItem?]
  | cons pair rest ih =>
    obtain ⟨t, gap⟩ := pair
    obtain ⟨⟨sort, hgives, hadmits, htoken⟩, hitems⟩ := List.forall_mem_cons.1 hitems
    obtain ⟨⟨hgap, hblank⟩, hgaps⟩ := List.forall_mem_cons.1 hgaps
    have hdetached : Detached (gap ++ spaced rest) := by
      cases rest with
      | nil => rwa [spaced, List.append_nil]
      | cons next rest =>
        obtain ⟨c, gap, rfl⟩ := List.exists_cons_of_ne_nil (hapart (t, gap) (by simp))
        exact hblank
    have hrest : ∀ pair ∈ rest.dropLast, pair.2 ≠ [] := by
      intro pair hpair
      cases rest with
      | nil => cases hpair
      | cons next rest => exact hapart pair (List.mem_cons_of_mem _ hpair)
    obtain ⟨found, q, hscan, hfound⟩ := ih hitems hgaps hrest ({ t with position := p } :: done)
      ((p.after t.lexeme.toList).after gap)
    refine ⟨{ t with position := p } :: found, q, ?_, ?_⟩
    · rw [spaced, scanFrom_of_cutItem? (cutItem?_of_admits hadmits hgives hdetached), htoken,
        hgap.scanFrom_append]
      simpa using hscan
    · simp [hfound, Token.content]

/-- A `source` without a fault can be laid out anew: with its `tokens` in their order behind an
    `opening` gap, and with one of the `gaps` behind each that begins with a blank, none of them
    empty but that behind the last one, the same tokens are found. -/
theorem tokenize_spaced {source : String} {tokens : List Token} {last : Token}
    (h : tokenize source = .ok (tokens ++ [last])) {opening : List Char}
    {gaps : List (List Char)} (hopening : Gap opening) (hlength : gaps.length = tokens.length)
    (hgaps : ∀ gap ∈ gaps, Gap gap ∧ Detached gap) (hapart : ∀ gap ∈ gaps.dropLast, gap ≠ []) :
    ∃ again, tokenize (String.ofList (opening ++ spaced (tokens.zip gaps))) = .ok again ∧
      again.map Token.content = (tokens ++ [last]).map Token.content := by
  obtain ⟨⟨p, rfl⟩, hitems⟩ := exists_isOf_of_tokenize h
  have hfst : (tokens.zip gaps).map Prod.fst = tokens := List.map_fst_zip hlength.ge
  have hsnd : (tokens.zip gaps).map Prod.snd = gaps := List.map_snd_zip hlength.le
  have hitem : ∀ pair ∈ tokens.zip gaps, ∃ sort, pair.1.IsOf sort :=
    fun pair hpair => hitems pair.1 (List.of_mem_zip hpair).1
  have hgap : ∀ pair ∈ tokens.zip gaps, Gap pair.2 ∧ Detached pair.2 :=
    fun pair hpair => hgaps pair.2 (List.of_mem_zip hpair).2
  have hnonempty : ∀ pair ∈ (tokens.zip gaps).dropLast, pair.2 ≠ [] := by
    intro pair hpair
    refine hapart pair.2 ?_
    rw [← hsnd, ← List.map_dropLast]
    exact List.mem_map_of_mem hpair
  obtain ⟨found, q, hscan, hfound⟩ :=
    scanFrom_spaced hitem hgap hnonempty [] (Position.start.after opening)
  refine ⟨found ++ [Token.endAt q], tokenize_eq_ok.2 ?_, ?_⟩
  · rw [scan, String.toList_ofList, hopening.scanFrom_append, hscan]
    exact ⟨rfl, rfl⟩
  · have hcontent : (tokens.zip gaps).map (fun pair => pair.1.content) =
        tokens.map Token.content := by
      have hmap := congrArg (List.map Token.content) hfst
      rwa [List.map_map] at hmap
    rw [List.map_append, List.map_append, hfound, hcontent]
    rfl

/-- A slash before a comment, and a string that holds the beginning of one. -/
theorem tokenize_spaced_of_slash :
    let tokens : List Token :=
      [⟨.identifier, "x", .str "x", ⟨1, 1⟩⟩, ⟨.operator, "/", .str "/", ⟨1, 2⟩⟩,
        ⟨.string, "\"//\"", .str "//", ⟨1, 3⟩⟩]
    tokenize "x/\"//\"" = .ok (tokens ++ [Token.endAt ⟨1, 7⟩]) ∧
      ∃ again, tokenize "#\nx / // \"\n\"//\"" = .ok again ∧
        again.map Token.content = (tokens ++ [Token.endAt ⟨1, 7⟩]).map Token.content := by
  intro tokens
  have h : tokenize "x/\"//\"" = .ok (tokens ++ [Token.endAt ⟨1, 7⟩]) := by decide +kernel
  let gaps : List (List Char) := [[' '], [' ', '/', '/', ' ', '"', '\n'], []]
  have hopening : Gap ['#', '\n'] := .comment (.inl rfl) List.not_mem_nil .nil
  have hcomment : Gap (['/', '/'] ++ [' ', '"'] ++ '\n' :: []) :=
    .comment (.inr rfl) (by simp) .nil
  have hgaps : ∀ gap ∈ gaps, Gap gap ∧ Detached gap := by
    simp only [gaps, List.forall_mem_cons, List.not_mem_nil, false_imp_iff, forall_const, and_true]
    refine ⟨⟨.blank (by decide) .nil, ?_⟩, ⟨.blank (by decide) hcomment, ?_⟩, .nil, ?_⟩
    all_goals simp [Detached, blanks]
  have htext : String.ofList (['#', '\n'] ++ spaced (tokens.zip gaps)) =
      "#\nx / // \"\n\"//\"" := by
    decide +kernel
  have hlength : gaps.length = tokens.length := rfl
  have hspaced := tokenize_spaced h hopening hlength hgaps (by simp [gaps])
  rw [htext] at hspaced
  exact ⟨h, hspaced⟩

end Scripting
