import Scripting.Proofs.Grammar.Placing
import Scripting.Proofs.Session.Texts
import Scripting.Proofs.Token.Standing

set_option autoImplicit false

/-! # Texts one behind the other

A line feed ends every item that could go on, so a text without a fault is cut into the same items
when a line feed and a further text follow it. The further text is scanned as `scan` does it alone,
from a later line on. -/

namespace Scripting

/-! ## Items before a line feed -/

/-- The `cut` with a line feed and `more` text behind it. -/
def Cut.followedBy (cut : Cut) (more : List Char) : Cut :=
  { cut with rest := cut.rest ++ '\n' :: more }

section Runs

variable {p : Char → Bool}

theorem takeWhile_append_lineFeed (hp : p '\n' = false) (s more : List Char) :
    (s ++ '\n' :: more).takeWhile p = s.takeWhile p := by
  induction s with
  | nil => simp [hp]
  | cons c s ih => simp [List.takeWhile_cons, ih]

theorem dropWhile_append_lineFeed (hp : p '\n' = false) (s more : List Char) :
    (s ++ '\n' :: more).dropWhile p = s.dropWhile p ++ '\n' :: more := by
  induction s with
  | nil => simp [hp]
  | cons c s ih =>
    simp only [List.cons_append, List.dropWhile_cons]
    split
    · exact ih
    · rfl

end Runs

/-- What begins the text `s` with another character than a line feed begins it before the line
    feed. -/
theorem exists_cons_of_append_lineFeed {s more rest : List Char} {c : Char} (hc : c ≠ '\n')
    (h : s ++ '\n' :: more = c :: rest) : ∃ s', s = c :: s' ∧ s' ++ '\n' :: more = rest := by
  cases s with
  | nil => exact absurd (List.cons.inj h).1.symm hc
  | cons d s =>
    obtain ⟨rfl, rfl⟩ := List.cons.inj h
    exact ⟨s, rfl, rfl⟩

theorem cutFraction_append_lineFeed (whole s more : List Char) :
    Number.cutFraction whole (s ++ '\n' :: more) =
      ((Number.cutFraction whole s).1, (Number.cutFraction whole s).2 ++ '\n' :: more) := by
  fun_cases Number.cutFraction whole s with
  | case1 d rest hd =>
    simp only [List.cons_append, Number.cutFraction, hd, if_true]
    rw [takeWhile_append_lineFeed (by decide), dropWhile_append_lineFeed (by decide)]
  | case2 d rest hd => simp [Number.cutFraction, hd]
  | case3 _ hpoint =>
    unfold Number.cutFraction
    split
    · rename_i d rest heq
      obtain ⟨s', rfl, hrest⟩ := exists_cons_of_append_lineFeed (by decide) heq
      -- a point at the end of the text has the line feed behind it
      cases s' with
      | nil => cases hrest; simp
      | cons e s' => exact (hpoint e s' rfl).elim
    · rfl

theorem cutLiteral_append_lineFeed (s more : List Char) :
    Number.cutLiteral (s ++ '\n' :: more) =
      ((Number.cutLiteral s).1, (Number.cutLiteral s).2 ++ '\n' :: more) := by
  unfold Number.cutLiteral
  rw [takeWhile_append_lineFeed (by decide), dropWhile_append_lineFeed (by decide)]
  split
  · rfl
  · exact cutFraction_append_lineFeed _ _ _

/-- A string that has an end for `cutString` keeps it, whatever follows. -/
theorem cutString_append_of_eq_some {s : List Char} {r : List Char × List Char}
    (h : cutString s = some r) (more : List Char) :
    cutString (s ++ more) = some (r.1, r.2 ++ more) := by
  fun_induction cutString s generalizing r with
  | case1 => simp at h
  | case2 => cases h; rfl
  | case3 c rest ih =>
    obtain ⟨q, hq, rfl⟩ := Option.map_eq_some_iff.1 h
    simp [cutString, ih hq]
  | case4 => simp at h
  | case5 c rest hquote hbackslash hlast ih =>
    obtain ⟨q, hq, rfl⟩ := Option.map_eq_some_iff.1 h
    have hplain : c ≠ '\\' := by
      rintro rfl
      cases rest with
      | nil => exact hlast rfl rfl
      | cons d rest => exact hbackslash d rest rfl rfl
    rw [List.cons_append, cutString]
    · simp [ih hq]
    · exact hquote
    · exact fun _ _ h _ => hplain h
    · exact fun h _ => hplain h

theorem cutComment_append_lineFeed (s more : List Char) :
    cutComment (s ++ '\n' :: more) = (cutComment s).map (·.followedBy more) := by
  fun_cases cutComment s with
  | case1 rest =>
    simp [cutComment, Cut.followedBy, takeWhile_append_lineFeed, dropWhile_append_lineFeed, inLine]
  | case2 rest =>
    simp [cutComment, Cut.followedBy, takeWhile_append_lineFeed, dropWhile_append_lineFeed, inLine]
  | case3 _ hhash hslashes =>
    unfold cutComment
    split
    · rename_i hs
      obtain ⟨s', rfl, -⟩ := exists_cons_of_append_lineFeed (by decide) hs
      exact (hhash _ rfl).elim
    · rename_i hs
      obtain ⟨s', rfl, hs'⟩ := exists_cons_of_append_lineFeed (by decide) hs
      obtain ⟨s'', rfl, -⟩ := exists_cons_of_append_lineFeed (by decide) hs'
      exact (hslashes _ rfl).elim
    · rfl

theorem cutOperator_append_lineFeed (s more : List Char) :
    cutOperator (s ++ '\n' :: more) = (cutOperator s).map (·.followedBy more) := by
  -- the second character of an operator is not behind a line feed
  have single {c x : Char} {rest : List Char} (h : ∀ r, c = x → rest = '=' :: r → False) :
      ∀ r, c = x → rest ++ '\n' :: more = '=' :: r → False := by
    intro r hc hrest
    obtain ⟨s', rfl, -⟩ := exists_cons_of_append_lineFeed (by decide) hrest
    exact h s' hc rfl
  fun_cases cutOperator s with
  | case5 c rest h₁ h₂ h₃ h₄ hsign =>
    rw [List.cons_append, cutOperator.eq_5 _ _ (single h₁) (single h₂) (single h₃) (single h₄),
      if_pos hsign]
    rfl
  | case6 c rest h₁ h₂ h₃ h₄ hsign =>
    rw [List.cons_append, cutOperator.eq_5 _ _ (single h₁) (single h₂) (single h₃) (single h₄),
      if_neg hsign]
    rfl
  | case7 => simp [cutOperator]
  | _ => rfl

theorem cutPunctuation_append_lineFeed (s more : List Char) :
    cutPunctuation (s ++ '\n' :: more) = (cutPunctuation s).map (·.followedBy more) := by
  cases s with
  | nil => simp [cutPunctuation]
  | cons c rest =>
    simp only [cutPunctuation, List.cons_append]
    split <;> rfl

theorem cutRun_append_lineFeed {c : Char} (hc : c ≠ '"') (rest more : List Char) :
    cutRun c (rest ++ '\n' :: more) = (cutRun c rest).map (·.followedBy more) := by
  have hliteral := cutLiteral_append_lineFeed (c :: rest) more
  rw [List.cons_append] at hliteral
  unfold cutRun
  rw [hliteral, takeWhile_append_lineFeed (by decide), dropWhile_append_lineFeed (by decide),
    takeWhile_append_lineFeed (by decide), dropWhile_append_lineFeed (by decide)]
  split_ifs <;> rfl

theorem cutRun_append_of_eq_some {rest : List Char} {cut : Cut} (h : cutRun '"' rest = some cut)
    (more : List Char) : cutRun '"' (rest ++ '\n' :: more) = some (cut.followedBy more) := by
  obtain ⟨r, hr, rfl⟩ := Option.map_eq_some_iff.1 (show (cutString rest).map _ = some cut from h)
  exact congrArg (Option.map _) (cutString_append_of_eq_some hr _)

/-- Behind a line feed `cutItem?` sees nothing of what an item could be, unless a string goes on
    there. -/
theorem cutItem?_cons_append_lineFeed {c : Char} (hc : c ≠ '"') (rest more : List Char) :
    cutItem? (c :: rest ++ '\n' :: more) = (cutItem? (c :: rest)).map (·.followedBy more) := by
  have hcomment := cutComment_append_lineFeed (c :: rest) more
  have hoperator := cutOperator_append_lineFeed (c :: rest) more
  have hpunctuation := cutPunctuation_append_lineFeed (c :: rest) more
  simp only [List.cons_append] at hcomment hoperator hpunctuation ⊢
  simp only [cutItem?, hcomment, hoperator, hpunctuation, cutRun_append_lineFeed hc, Option.map_or]

/-- `cutItem?` cuts an item off in the same way if a line feed and `more` text follow. -/
theorem cutItem?_append_lineFeed {s : List Char} {cut : Cut} (h : cutItem? s = some cut)
    (more : List Char) : cutItem? (s ++ '\n' :: more) = some (cut.followedBy more) := by
  cases s with
  | nil => simp [cutItem?] at h
  | cons c rest =>
    by_cases hquote : c = '"'
    · subst hquote
      -- a quote begins nothing but a string
      have hstring (s : List Char) : cutItem? ('"' :: s) = cutRun '"' s := by
        simp [cutItem?, cutComment, cutOperator, cutPunctuation]
      rw [hstring] at h
      rw [List.cons_append, hstring, cutRun_append_of_eq_some h]
    · rw [cutItem?_cons_append_lineFeed hquote, h]
      rfl

/-! ## Scans -/

theorem scanFrom_of_cutItem? {s : List Char} {cut : Cut} (h : cutItem? s = some cut)
    (done : List Token) (p : Position) :
    scanFrom done p s =
      scanFrom ((cut.token? p).toList ++ done) (p.after cut.text) cut.rest := by
  rw [scanFrom]
  split
  · rename_i cut' hcut'
    obtain rfl := Option.some.inj (h.symm.trans hcut')
    rfl
  · rename_i hnone
    cases h.symm.trans hnone

/-- Behind a text without a fault and a line feed `scanFrom` goes on with the tokens of the text,
    all but its end of input. -/
theorem scanFrom_append_lineFeed {done : List Token} {p : Position} {s : List Char}
    (hdone : ∀ t ∈ done, t.isEnd = false) (h : (scanFrom done p s).fault = none) :
    ∃ found : List Token, (∀ t ∈ found, t.isEnd = false) ∧
      (scanFrom done p s).tokens = found.reverse ++ [Token.endAt (p.after s)] ∧
      ∀ more, scanFrom done p (s ++ '\n' :: more) =
        scanFrom found ((p.after s).next '\n') more := by
  fun_induction scanFrom done p s with
  | case1 done p s cut hcut ih =>
    obtain ⟨happ, -⟩ := cutItem?_splits hcut
    have hmore : ∀ t ∈ (cut.token? p).toList ++ done, t.isEnd = false := by
      intro t ht
      rcases List.mem_append.1 ht with ht | ht
      · exact (Cut.token?_eq_some (by simpa [eq_comm] using ht)).2.2
      · exact hdone t ht
    obtain ⟨found, hfound, htokens, hrest⟩ := ih hmore h
    rw [← Position.after_append, happ] at htokens hrest
    refine ⟨found, hfound, htokens, fun more => ?_⟩
    rw [scanFrom_of_cutItem? (cutItem?_append_lineFeed hcut more)]
    exact hrest more
  | case2 done p =>
    have hlineFeed (more : List Char) :
        cutItem? ('\n' :: more) = some ⟨.lineFeed, ['\n'], more⟩ := rfl
    exact ⟨done, hdone, by simp, fun more => scanFrom_of_cutItem? (hlineFeed more) done p⟩
  | case3 => cases h

/-- A text with a stray character has it whatever follows: it is no `unterminatedString`. -/
theorem scanFrom_append_lineFeed_of_fault {done : List Token} {p : Position} {s : List Char}
    {f : Fault} (h : (scanFrom done p s).fault = some f) (hstray : f.cause ≠ .unterminatedString)
    (more : List Char) : scanFrom done p (s ++ '\n' :: more) = scanFrom done p s := by
  fun_induction scanFrom done p s with
  | case1 done p s cut hcut ih =>
    rw [scanFrom_of_cutItem? (cutItem?_append_lineFeed hcut more)]
    exact ih h
  | case2 => cases h
  | case3 done p c rest hcut =>
    have hc : c ≠ '"' := by
      rintro rfl
      exact hstray (by rw [← Option.some.inj h]; rfl)
    have hnone : cutItem? (c :: rest ++ '\n' :: more) = none := by
      rw [cutItem?_cons_append_lineFeed hc, hcut]
      rfl
    rw [scanFrom]
    split
    · rename_i cut hsome
      cases hnone.symm.trans hsome
    · rfl

/-! ## Later lines -/

/-- The token `t` placed elsewhere, by `f`. -/
def Token.placed (f : Placing) (t : Token) : Token :=
  { t with position := f t.position }

theorem Position.after_down (n : Nat) (p : Position) (s : List Char) :
    (Placing.down n p).after s = Placing.down n (p.after s) := by
  have hnext (p : Position) (c : Char) :
      (Placing.down n p).next c = Placing.down n (p.next c) := by
    unfold next
    split
    · simp only [Placing.down, mk.injEq, and_true]
      omega
    · rfl
  induction s generalizing p with
  | nil => rfl
  | cons c s ih => rw [after_cons, after_cons, hnext, ih]

theorem Cut.token?_placed (cut : Cut) (f : Placing) (p : Position) :
    cut.token? (f p) = (cut.token? p).map (Token.placed f) := by
  obtain ⟨sort, text, rest⟩ := cut
  cases sort <;> rfl

/-- A fault that points `n` lines further down. -/
def Fault.down (n : Nat) (f : Fault) : Fault :=
  { f with place := ⟨f.place.line.map (· + n), f.place.column⟩ }

theorem strayCharacter_down (n : Nat) (c : Char) (p : Position) :
    (strayCharacter c p).down n = strayCharacter c (Placing.down n p) := by
  unfold strayCharacter
  split <;> rfl

/-- A scan with all that it finds `n` lines further down. -/
def Scan.down (n : Nat) (s : Scan) : Scan :=
  ⟨s.tokens.map (Token.placed (.down n)), s.fault.map (Fault.down n)⟩

/-- A scan behind the tokens that were `found` before. -/
def Scan.behind (found : List Token) (s : Scan) : Scan :=
  ⟨found ++ s.tokens, s.fault⟩

/-- The text `s` that begins `n` lines further down has the same tokens there, and the same
    fault. -/
theorem scanFrom_down (n : Nat) (done : List Token) (p : Position) (s : List Char) :
    scanFrom (done.map (Token.placed (.down n))) (Placing.down n p) s =
      (scanFrom done p s).down n := by
  fun_induction scanFrom done p s with
  | case1 done p s cut hcut ih =>
    have hdone : ((cut.token? p).toList ++ done).map (Token.placed (.down n)) =
        (cut.token? (Placing.down n p)).toList ++ done.map (Token.placed (.down n)) := by
      rw [Cut.token?_placed, List.map_append, Option.toList_map]
    rw [scanFrom_of_cutItem? hcut, ← hdone, Position.after_down]
    exact ih
  | case2 done p =>
    rw [scanFrom]
    simp [cutItem?, Scan.down, Token.placed, Token.endAt]
  | case3 done p c rest hcut =>
    rw [scanFrom]
    split
    · rename_i cut hcut'
      cases hcut.symm.trans hcut'
    · simp [Scan.down, strayCharacter_down]

/-- Behind the text `a` without a fault and a line feed, a further text `b` is scanned as it would
    be alone, only so many lines further down. -/
theorem scan_append_lineFeed {a : String} {as : List Token} (ha : tokenize a = .ok as) :
    ∃ found p, as = found ++ [Token.endAt p] ∧ (∀ t ∈ found, t.isEnd = false) ∧
      ∀ b, scan (a ++ "\n" ++ b) = ((scan b).down (a.toList.count '\n' + 1)).behind found := by
  obtain ⟨hfault, rfl⟩ := tokenize_eq_ok.1 ha
  obtain ⟨found, hfound, htokens, hrest⟩ := scanFrom_append_lineFeed (by simp) hfault
  obtain ⟨line, -, hafter, -⟩ := Position.exists_lastLine a.toList
  have hstart : (Position.start.after a.toList).next '\n' =
      Placing.down (a.toList.count '\n' + 1) .start := by
    rw [hafter]
    simp only [Position.next, Placing.down, Position.start, if_true, Position.mk.injEq, and_true]
    omega
  refine ⟨found.reverse, _, htokens, by simpa using hfound, fun b => ?_⟩
  have htext : (a ++ "\n" ++ b).toList = a.toList ++ '\n' :: b.toList := by simp
  rw [scan, htext, hrest, hstart, scanFrom_done]
  exact congrArg (Scan.behind found.reverse) (scanFrom_down _ [] .start b.toList)

/-- The tokens of `a` and `b` with a line feed between them are those of `a`, all but its end of
    input, and those of `b`, which stand behind the lines of `a`. -/
theorem tokenize_append_lineFeed {a b : String} {as bs : List Token} (ha : tokenize a = .ok as)
    (hb : tokenize b = .ok bs) :
    ∃ found last, as = found ++ [last] ∧ (∀ t ∈ found, t.isEnd = false) ∧ last.isEnd = true ∧
      tokenize (a ++ "\n" ++ b) =
        .ok (found ++ bs.map (Token.placed (.down (a.toList.count '\n' + 1)))) := by
  obtain ⟨hfault, rfl⟩ := tokenize_eq_ok.1 hb
  obtain ⟨found, p, has, hfound, hscan⟩ := scan_append_lineFeed ha
  refine ⟨found, _, has, hfound, rfl, tokenize_eq_ok.2 ?_⟩
  rw [hscan b]
  exact ⟨congrArg (Option.map _) hfault, rfl⟩

/-- Whatever text `b` follows `a`, which is without a fault, and a line feed, its tokens follow
    those of `a`, all but the end of input, as many lines further down as `a` takes; and it ends as
    it would alone, with its end of input so moved or at a fault over the same character, so
    moved. -/
theorem scan_composes {a : String} {as : List Token} (ha : tokenize a = .ok as) (b : String) :
    let further : Placing := .down (1 + a.toList.count '\n')
    let whole := scan (a ++ "\n" ++ b)
    (∃ found p, as = found ++ [Token.endAt p] ∧ (∀ t ∈ found, t.isEnd = false) ∧
      whole.tokens = found ++ (scan b).tokens.map (Token.placed further)) ∧
      (whole.fault = none ↔ (scan b).fault = none) ∧
      ∀ f, (scan b).fault = some f →
        ∃ c p, f = strayCharacter c p ∧ whole.fault = some (strayCharacter c (further p)) := by
  intro further whole
  obtain ⟨found, p, has, hfound, hscan⟩ := scan_append_lineFeed ha
  have hwhole : whole = ((scan b).down (1 + a.toList.count '\n')).behind found := by
    rw [Nat.add_comm]
    exact hscan b
  rw [hwhole]
  refine ⟨⟨found, p, has, hfound, rfl⟩, ?_, ?_⟩
  · exact Option.map_eq_none_iff
  · intro f hf
    obtain ⟨c, _, q, rfl, -⟩ := exists_begins_of_scanFrom (Position.start_begins b.toList) hf
    refine ⟨c, q, rfl, ?_⟩
    rw [← strayCharacter_down]
    exact congrArg (Option.map (Fault.down _)) hf

/-- A comment with a quote in it, and behind it a string over two lines before a character that
    begins no item. -/
theorem scan_composes_of_comment :
    let a := "1 / 2 // \"\n"
    let b := "x \"y\nz\" ?"
    ∃ as, tokenize a = .ok as ∧
      (scan (a ++ "\n" ++ b)).tokens.length = as.length + 1 ∧
      (scan (a ++ "\n" ++ b)).fault = some (strayCharacter '?' ⟨4, 4⟩) := by
  intro a b
  have hread : (tokenize "1 / 2 // \"\n").isOk = true := by decide +kernel
  have htwo : (scan "x \"y\nz\" ?").tokens.length = 2 := by decide +kernel
  have hstray : (scan "x \"y\nz\" ?").fault = some (strayCharacter '?' ⟨2, 4⟩) := by
    decide +kernel
  cases ha : tokenize "1 / 2 // \"\n" with
  | error f =>
    rw [ha] at hread
    cases hread
  | ok as =>
    obtain ⟨⟨found, p, has, -, htokens⟩, -, hfault⟩ := scan_composes ha "x \"y\nz\" ?"
    refine ⟨as, rfl, ?_, ?_⟩
    · rw [htokens, has, List.length_append, List.length_append, List.length_map, htwo]
      rfl
    · obtain ⟨c, q, hc, hwhole⟩ := hfault _ hstray
      rw [hwhole, ← strayCharacter_down, ← hc, strayCharacter_down]
      rfl

/-- What is told of the text `a` by its scan when it is the beginning of one without a fault: it has
    no stray character, and its tokens, all but its end of input, are the first of the whole
    text. -/
theorem exists_tokens_of_prefix {a b : String} {cs : List Token}
    (h : tokenize (a ++ "\n" ++ b) = .ok cs) :
    (∃ f, tokenize a = .error f ∧ f.cause = .unterminatedString) ∨
      ∃ found last rest p, tokenize a = .ok (found ++ [last]) ∧ last.isEnd = true ∧
        cs = found ++ (rest ++ [Token.endAt p]) := by
  obtain ⟨hfault, rfl⟩ := tokenize_eq_ok.1 h
  have htext : (a ++ "\n" ++ b).toList = a.toList ++ '\n' :: b.toList := by simp
  rw [scan, htext] at hfault ⊢
  cases ha : tokenize a with
  | error f =>
    refine .inl ⟨f, rfl, ?_⟩
    by_contra hstray
    have hscan := tokenize_eq_error.1 ha
    rw [scanFrom_append_lineFeed_of_fault hscan hstray] at hfault
    cases hfault.symm.trans hscan
  | ok as =>
    obtain ⟨hnone, rfl⟩ := tokenize_eq_ok.1 ha
    obtain ⟨found, -, htokens, hgoes⟩ := scanFrom_append_lineFeed (by simp) hnone
    rw [hgoes, scanFrom_done] at hfault ⊢
    obtain ⟨rest, p, hrest⟩ := scanFrom_closes hfault
    exact .inr ⟨found.reverse, _, rest, p, congrArg Except.ok htokens, rfl, by rw [hrest]⟩

end Scripting
