import Scripting.Proofs.Token.Spacing

set_option autoImplicit false

/-! # Texts that are a number

Two readers take a text for a number: `scan`, which cuts off one item after another, and
`Number.parse?`, the reading of a literal from end to end. A text is a number for the one just if it
is for the other, and both give it the same value. -/

namespace Scripting

/-- Whether `text` is the single number `x` for the scan: its token takes up the whole text, and
    nothing but the end of the text is behind it. -/
def ScansAsNumber (text : List Char) (x : Float) : Prop :=
  ∃ t last, tokenize (String.ofList text) = .ok [t, last] ∧ t.kind = .number ∧
    t.lexeme = String.ofList text ∧ t.value = .num x ∧ last.isEnd = true

/-! ## Literals from end to end -/

/-- `cutLiteral` leaves nothing of a number. -/
theorem cutLiteral_of_admits {text : List Char} (h : ItemSort.number.Admits text) :
    Number.cutLiteral text = (text, []) := by
  have hfront := prefix_cutLiteral h []
  have hwhole := Number.cutLiteral_append text
  rw [List.append_nil] at hfront
  obtain ⟨more, hmore⟩ := hfront
  rw [← hmore, List.append_assoc, List.append_right_eq_self, List.append_eq_nil_iff] at hwhole
  obtain ⟨rfl, hrest⟩ := hwhole
  rw [List.append_nil] at hmore
  exact Prod.ext hmore.symm hrest

/-- A text is a number from end to end for `parse?` just if it is written like one. -/
theorem Number.parse?_eq_some_iff {text : List Char} {x : Float} :
    parse? text = some x ↔ ItemSort.number.Admits text ∧ ofLiteral text = x := by
  constructor
  · intro h
    unfold parse? at h
    split at h
    · rename_i d digits hcut
      have hwhole := cutLiteral_append text
      rw [hcut, List.append_nil] at hwhole
      obtain rfl : d :: digits = text := hwhole
      have hdigit : d.isDigit = true := by
        by_contra hnot
        simp [cutLiteral, hnot] at hcut
      have hadmits := cutLiteral_admits digits hdigit
      rw [hcut] at hadmits
      exact ⟨hadmits, Option.some.inj h⟩
    · cases h
  · rintro ⟨hadmits, rfl⟩
    obtain ⟨c, line, rfl, -⟩ := hadmits.exists_digit
    rw [parse?, cutLiteral_of_admits hadmits]

/-! ## Numbers for the scan -/

theorem tokenize_numeral {text : List Char} (h : ItemSort.number.Admits text) :
    tokenize (String.ofList text) =
      .ok [⟨.number, String.ofList text, .num (Number.ofLiteral text), .start⟩,
        Token.endAt (Position.start.after text)] := by
  have hnothing : Detached [] := by simp [Detached]
  have hcut : cutItem? text = some ⟨.number, text, []⟩ := by
    simpa using cutItem?_of_admits h rfl hnothing
  have hscan : scan (String.ofList text) =
      ⟨[⟨.number, String.ofList text, .num (Number.ofLiteral text), .start⟩,
        Token.endAt (Position.start.after text)], none⟩ := by
    rw [scan, String.toList_ofList, scanFrom_of_cutItem? hcut, scanFrom]
    rfl
  rw [tokenize_eq_ok, hscan]
  exact ⟨rfl, rfl⟩

/-- Only numbers give tokens of their kind. -/
theorem Token.IsOf.eq_number {t : Token} {sort : ItemSort} (h : t.IsOf sort)
    (hkind : t.kind = .number) : sort = .number := by
  have htoken := congrArg (Option.map Token.kind) (h.token? [] .start)
  simp only [Option.map_some, hkind] at htoken
  cases sort with
  | number => rfl
  | word =>
    simp only [Cut.token?, Option.map_some, Option.some.injEq] at htoken
    split at htoken <;> cases htoken
  | _ => cases htoken

/-- The scan takes for a number what `parse?` does from end to end, and gives it the same value. -/
theorem scansAsNumber_iff {text : List Char} {x : Float} :
    ScansAsNumber text x ↔ Number.parse? text = some x := by
  rw [Number.parse?_eq_some_iff]
  constructor
  · rintro ⟨t, last, htokens, hkind, hlexeme, hvalue, -⟩
    have hcut : tokenize (String.ofList text) = .ok ([t] ++ [last]) := htokens
    obtain ⟨sort, hsort⟩ := (exists_isOf_of_tokenize hcut).2 t (List.mem_singleton_self t)
    obtain rfl := hsort.eq_number hkind
    have hadmits := hsort.admits
    rw [hlexeme, String.toList_ofList] at hadmits
    rw [tokenize_numeral hadmits] at htokens
    obtain ⟨rfl, -⟩ := List.cons.inj (Except.ok.inj htokens)
    exact ⟨hadmits, Value.num.inj hvalue⟩
  · rintro ⟨hadmits, rfl⟩
    exact ⟨_, _, tokenize_numeral hadmits, rfl, rfl, rfl, rfl⟩

/-! ## Numbers in a source -/

/-- Whether no further character belongs to a number without a fraction: neither a digit follows
    nor a point with a digit behind it. -/
def EndsNumeral : List Char → Prop
  | '.' :: d :: _ => d.isDigit = false
  | c :: _ => c.isDigit = false
  | [] => True

/-- `scanFrom` takes `digits` for one number wherever they stand in a source. -/
theorem scanFrom_digits {digits : List Char} (h : Digits digits) {rest : List Char}
    (hrest : EndsNumeral rest) (done : List Token) (p : Position) :
    scanFrom done p (digits ++ rest) =
      scanFrom (⟨.number, String.ofList digits, .num (Number.ofLiteral digits), p⟩ :: done)
        (p.after digits) rest := by
  have hfront : rest.takeWhile Char.isDigit = [] := by
    cases rest with
    | nil => rfl
    | cons c rest =>
      have hc : c.isDigit = false := by
        unfold EndsNumeral at hrest
        split at hrest <;> simp_all
      simp [hc]
  have hliteral : Number.cutLiteral (digits ++ rest) = (digits, rest) := by
    rw [cutLiteral_of_digits h hfront]
    unfold Number.cutFraction
    split
    · simp_all [EndsNumeral]
    · rfl
  obtain ⟨c, line, rfl⟩ := List.exists_cons_of_ne_nil h.1
  have hcut := cutItem?_of_isDigit (h.2 c (by simp)) (line ++ rest)
  rw [← List.cons_append, hliteral] at hcut
  exact scanFrom_of_cutItem? hcut done p

end Scripting
