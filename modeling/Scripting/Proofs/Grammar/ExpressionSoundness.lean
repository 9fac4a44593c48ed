import Scripting.Proofs.Grammar.Passage

set_option autoImplicit false

/-! # What the expressions that are read look like

Every reading of an expression stands on a level of the ladder, where it is `Reading.SoundAt`. If it
succeeds, the expression is `Expr.WellFormed` and on that level or above it, the tokens passed spell
it, and the reading has gone as far as it could: the next token is not one that `Cursor.Extends` it
on that level. The last part is what keeps operations in order, since an operator that a right
operand has left is one that binds no more tightly than the operator before it. -/

namespace Scripting

/-! ## Words that go on with an expression -/

/-- The level of the node that a word makes of the expression before it, if it can go on with
    one. -/
def Word.binding? : Word → Option Nat
  | .mark s => if s = "(" then some 8 else none
  | .operator s =>
    if s = "=" then some 0
    else (Operator.ofSpelling? s).bind fun op => op.precedence?.map (· + 2)
  | .keyword s => if s = "and" then some 2 else if s = "or" then some 1 else none
  | .literal _ => none
  | .name _ => none

/-- Whether the token under the cursor `c` goes on with an expression that is read on the level
    `k`. -/
def Cursor.Extends (c : Cursor) (k : Nat) : Prop :=
  ∃ w b, c.current.word? = some w ∧ w.binding? = some b ∧ k ≤ b

theorem Cursor.Extends.mono {c : Cursor} {j k : Nat} (h : c.Extends k) (hjk : j ≤ k) :
    c.Extends j := by
  obtain ⟨w, b, hw, hb, hk⟩ := h
  exact ⟨w, b, hw, hb, Nat.le_trans hjk hk⟩

/-- A word goes on on its own level, its `binding?`, and on those below it. -/
theorem Cursor.extends_iff {c : Cursor} {k b : Nat} {w : Word} (hw : c.current.word? = some w)
    (hb : w.binding? = some b) : c.Extends k ↔ k ≤ b := by
  constructor
  · rintro ⟨w', b', hw', hb', hk⟩
    rw [hw, Option.some.injEq] at hw'
    subst hw'
    rw [hb, Option.some.injEq] at hb'
    exact hb' ▸ hk
  · exact fun hk => ⟨w, b, hw, hb, hk⟩

/-- A word that goes on with nothing. -/
theorem Cursor.not_extends {c : Cursor} {w : Word} (hw : c.current.word? = some w)
    (hb : w.binding? = none) (k : Nat) : ¬ c.Extends k := by
  rintro ⟨w', b, hw', hb', _⟩
  rw [hw, Option.some.injEq] at hw'
  subst hw'
  simp [hb] at hb'

theorem Word.binding?_spelling {op : Operator} {p : Nat} (h : op.precedence? = some p) :
    (Word.operator op.spelling).binding? = some (p + 2) := by
  cases op <;> simp only [Operator.precedence?, Option.some.injEq, reduceCtorEq] at h <;>
    subst h <;> rfl

/-- A keyword that joins operands, `and` or `or`, goes on on the level of its operator. -/
theorem Word.binding?_keyword {op : Operator} (hop : op = .and ∨ op = .or) :
    (Word.keyword op.spelling).binding? = some op.level := by
  rcases hop with rfl | rfl <;> rfl

/-- The words that go on with an expression, level by level. -/
theorem Word.binding?_cases {w : Word} {b : Nat} (h : w.binding? = some b) :
    (b = 8 ∧ w = .mark "(") ∨
    (∃ (op : Operator) (p : Nat), op.precedence? = some p ∧ w = .operator op.spelling ∧
      b = p + 2 ∧ 1 ≤ p ∧ p ≤ 4) ∨
    (b = 2 ∧ w = .keyword "and") ∨ (b = 1 ∧ w = .keyword "or") ∨ (b = 0 ∧ w = .operator "=") := by
  cases w with
  | literal v => simp [binding?] at h
  | name s => simp [binding?] at h
  | mark s =>
    simp only [binding?] at h
    split at h <;> simp_all
  | keyword s =>
    simp only [binding?] at h
    split at h
    · simp_all
    · split at h <;> simp_all
  | operator s =>
    simp only [binding?] at h
    split at h
    · simp_all
    · obtain ⟨op, hop, h⟩ := Option.bind_eq_some_iff.1 h
      obtain ⟨p, hp, rfl⟩ := Option.map_eq_some_iff.1 h
      rw [Operator.ofSpelling?_eq_some_iff] at hop
      exact .inr (.inl ⟨op, p, hp, by rw [hop], rfl, Operator.precedence?_le hp⟩)

/-- Nothing `Extends` an expression above the level of calls. -/
theorem Cursor.Extends.le {c : Cursor} {k : Nat} (h : c.Extends k) : k ≤ 8 := by
  obtain ⟨w, b, _, hb, hk⟩ := h
  rcases Word.binding?_cases hb with ⟨rfl, _⟩ | ⟨op, p, _, _, rfl, _⟩ | ⟨rfl, _⟩ | ⟨rfl, _⟩ |
    ⟨rfl, _⟩ <;> omega

/-- What goes on on a level but not on the next one is a word of that very level. -/
theorem Cursor.Extends.binding {c : Cursor} {k : Nat} (h : c.Extends k)
    (hnext : ¬ c.Extends (k + 1)) : ∃ w, c.current.word? = some w ∧ w.binding? = some k := by
  obtain ⟨w, b, hw, hb, hk⟩ := h
  rcases Nat.eq_or_lt_of_le hk with rfl | hlt
  · exact ⟨w, hw, hb⟩
  · exact absurd ⟨w, b, hw, hb, hlt⟩ hnext

/-! ## Readings on a level -/

/-- Between the cursors `c` and `c'` stands the expression `e` of a level from `k` on, and `c'` is
    as far as it goes. -/
structure Cursor.Reads (c : Cursor) (k : Nat) (e : Expr) (c' : Cursor) : Prop where
  wellFormed : e.WellFormed
  level : k ≤ e.level
  spells : c.Spells e.spelled c'
  stops : ¬ c'.Extends k

/-- Whether a reading gives expressions of the level `k` only: where it succeeds, it `Reads` one. -/
def Reading.SoundAt (k : Nat) (r : Reading Expr) : Prop :=
  ∀ ⦃c c' : Cursor⦄ ⦃e : Expr⦄, c.Closed → r.run c = .ok e c' → c.Reads k e c'

namespace Grammar

open Reading

variable {g : Nested}

theorem primary_sound (hg : g.expression.SoundAt 0) : (primary g).SoundAt 9 := by
  intro c c' e hc h
  have hstop (c : Cursor) : ¬ c.Extends 9 := fun hext => by have := hext.le; omega
  unfold primary at h
  rw [run_bind_of_ok run_current] at h
  split at h
  · rename_i value hvalue
    rw [run_bind_of_ok run_advance] at h
    obtain ⟨rfl, rfl⟩ := run_pure_eq_ok.1 h
    rw [Token.literalValue?_eq_some_iff] at hvalue
    exact ⟨trivial, Nat.le_refl _, .single hvalue, hstop _⟩
  · split at h
    · rename_i hkind
      rw [run_bind_of_ok run_advance] at h
      obtain ⟨rfl, rfl⟩ := run_pure_eq_ok.1 h
      exact ⟨trivial, Nat.le_refl _, .single (Token.kind_eq_identifier_iff.1 hkind), hstop _⟩
    · split at h
      · rename_i hopen
        rw [Token.is_mark, decide_eq_true_iff] at hopen
        rw [run_bind_of_ok run_advance] at h
        obtain ⟨inner, c₁, hinner, h⟩ := run_bind_eq_ok.1 h
        obtain ⟨hclose, h⟩ := run_eatMark_bind_eq_ok.1 h
        obtain ⟨rfl, rfl⟩ := run_pure_eq_ok.1 h
        obtain ⟨hwf, -, hspells, -⟩ := hg hc.advance hinner
        exact ⟨hwf, Nat.le_refl _, .cons hopen (hspells.append (.single hclose)), hstop _⟩
      · simp at h

/-- One more element of a list. An invariant `I` of the elements read so far takes care of what the
    reading of an element asks of those before it. -/
theorem oneMore_sound {α : Type} {element : List α → Reading α} {I : List α → Prop}
    {spelled : α → List Word}
    (helement : ∀ {done : List α} {c c' : Cursor} {a : α}, c.Closed → I done →
      (element done).run c = .ok a c' → I (a :: done) ∧ c.Spells (spelled a) c')
    {done done' : List α} {c c' : Cursor} (hc : c.Closed) (hI : I done)
    (hcomma : c.current.word? = some (.mark ","))
    (h : (oneMore element done).run c = .ok done' c') :
    ∃ a, done' = a :: done ∧ I done' ∧ c.Spells (.mark "," :: spelled a) c' := by
  unfold oneMore at h
  rw [run_bind_of_ok run_advance] at h
  obtain ⟨a, c₁, ha, h⟩ := run_bind_eq_ok.1 h
  obtain ⟨rfl, rfl⟩ := run_pure_eq_ok.1 h
  obtain ⟨hI', hspells⟩ := helement hc.advance hI ha
  exact ⟨a, rfl, hI', .cons hcomma hspells⟩

/-- The elements of a list, and the words of each of them. -/
theorem elements_sound {α : Type} {element : List α → Reading α} {I : List α → Prop}
    (spelled : α → List Word) (hnil : I [])
    (helement : ∀ {done : List α} {c c' : Cursor} {a : α}, c.Closed → I done →
      (element done).run c = .ok a c' → I (a :: done) ∧ c.Spells (spelled a) c')
    {c c' : Cursor} {as : List α} (hc : c.Closed) (h : (elements element).run c = .ok as c') :
    I as.reverse ∧ c.Spells (commaSeparated (as.map spelled)) c' := by
  unfold elements at h
  rw [run_bind_of_ok (run_seesMark _)] at h
  split at h
  · obtain ⟨rfl, rfl⟩ := run_pure_eq_ok.1 h
    exact ⟨hnil, .nil c⟩
  · obtain ⟨first, c₁, hfirst, h⟩ := run_bind_eq_ok.1 h
    obtain ⟨done, c₂, hloop, h⟩ := run_bind_eq_ok.1 h
    obtain ⟨rfl, rfl⟩ := run_pure_eq_ok.1 h
    obtain ⟨hI, hspells⟩ := helement hc hnil hfirst
    -- what is read so far, with commas between its elements, stands behind the first cursor
    obtain ⟨⟨_, hI, hspells⟩, _⟩ := whileSees_invariant
      (I := fun done c₁ => done ≠ [] ∧ I done ∧
        c.Spells (commaSeparated (done.reverse.map spelled)) c₁)
      (fun _ => run_seesMark ",")
      (by
        rintro done done' c₁ c₂ hc₁ ⟨hne, hI, hspells⟩ hcomma hstep
        obtain ⟨next, rfl, hI', hspells'⟩ := oneMore_sound helement hc₁ hI hcomma hstep
        refine ⟨⟨by simp, hI', ?_⟩, _, _, hspells'⟩
        rw [List.reverse_cons, List.map_append, List.map_singleton,
          commaSeparated_concat _ (by simpa using hne)]
        exact hspells.append hspells')
      (hspells.closed hc) ⟨by simp, hI, by simpa [commaSeparated] using hspells⟩ hloop
    exact ⟨by simpa using hI, hspells⟩

theorem expressions_sound (hg : g.expression.SoundAt 0) {c c' : Cursor} {es : List Expr}
    (hc : c.Closed) (h : (elements fun _ => g.expression).run c = .ok es c') :
    Expr.AllWellFormed es ∧ c.Spells (commaSeparated (Expr.spelledEach es)) c' := by
  obtain ⟨hwf, hspells⟩ := elements_sound Expr.spelled
    (I := fun done => ∀ e ∈ done, e.WellFormed) (by simp)
    (fun hc hdone hread => by
      obtain ⟨hwf, -, hspells, -⟩ := hg hc hread
      exact ⟨by simpa using ⟨hwf, hdone⟩, hspells⟩)
    hc h
  rw [Expr.spelledEach_eq_map]
  exact ⟨Expr.allWellFormed_iff.2 (by simpa using hwf), hspells⟩

theorem arguments_sound (hg : g.expression.SoundAt 0) {c c' : Cursor} {es : List Expr}
    (hc : c.Closed) (h : (arguments g).run c = .ok es c') :
    Expr.AllWellFormed es ∧
      c.Spells (commaSeparated (Expr.spelledEach es) ++ [.mark ")"]) c' := by
  unfold arguments at h
  obtain ⟨values, c₁, helements, h⟩ := run_bind_eq_ok.1 h
  obtain ⟨hclose, h⟩ := run_eatMark_bind_eq_ok.1 h
  obtain ⟨rfl, rfl⟩ := run_pure_eq_ok.1 h
  obtain ⟨hwf, hspells⟩ := expressions_sound hg hc helements
  exact ⟨hwf, hspells.append (.single hclose)⟩

/-- A call of what is on the level of calls, as `application` reads it. -/
theorem application_sound (hg : g.expression.SoundAt 0) {callee e : Expr} {c c' : Cursor}
    (hc : c.Closed) (hwf : callee.WellFormed) (hlevel : 8 ≤ callee.level)
    (hopen : c.current.word? = some (.mark "(")) (h : (application g callee).run c = .ok e c') :
    e.WellFormed ∧ 8 ≤ e.level ∧ ∃ words, e.spelled = callee.spelled ++ .mark "(" :: words ∧
      c.Spells (.mark "(" :: words) c' := by
  unfold application at h
  rw [run_bind_of_ok run_advance] at h
  obtain ⟨es, c₁, hes, h⟩ := run_bind_eq_ok.1 h
  obtain ⟨rfl, rfl⟩ := run_pure_eq_ok.1 h
  obtain ⟨hwfs, hspells⟩ := arguments_sound hg hc.advance hes
  exact ⟨⟨hlevel, hwf, hwfs⟩, Nat.le_refl _, _, rfl, .cons hopen hspells⟩

theorem call_sound (hg : g.expression.SoundAt 0) : (call g).SoundAt 8 := by
  intro c c' e hc h
  unfold call at h
  obtain ⟨callee, c₁, hcallee, hloop⟩ := run_bind_eq_ok.1 h
  obtain ⟨hwf, hlevel, hspells, -⟩ := primary_sound hg hc hcallee
  obtain ⟨⟨hwf, hlevel, hspells⟩, hstop⟩ := whileSees_invariant
    (I := fun e c₁ => e.WellFormed ∧ 8 ≤ e.level ∧ c.Spells e.spelled c₁)
    (fun _ => run_seesMark "(")
    (by
      rintro callee e c₁ c₂ hc₁ ⟨hwf, hlevel, hspells⟩ hopen hstep
      obtain ⟨hwf', hlevel', words, hspelled, hpassed⟩ :=
        application_sound hg hc₁ hwf hlevel hopen hstep
      exact ⟨⟨hwf', hlevel', hspelled ▸ hspells.append hpassed⟩, _, _, hpassed⟩)
    (hspells.closed hc) ⟨hwf, by omega, hspells⟩ hloop
  refine ⟨hwf, hlevel, hspells, fun hext => ?_⟩
  obtain ⟨w, hw, hb⟩ := hext.binding fun h => by have := h.le; omega
  rcases Word.binding?_cases hb with ⟨_, rfl⟩ | ⟨op, p, _, _, hp, _⟩ | ⟨_, _⟩ | ⟨_, _⟩ | ⟨_, _⟩
  · exact hstop hw
  all_goals omega

theorem negation?_eq_some_iff {t : Token} {op : Operator} :
    negation? t = some op ↔ (op = .neg ∨ op = .not) ∧ t.word? = some (.operator op.sign) := by
  unfold negation?
  rw [Token.is_operator, Token.is_operator]
  constructor
  · intro h
    split at h
    · cases h; simp_all [Operator.sign]
    · split at h
      · cases h; simp_all [Operator.sign]
      · simp at h
  · rintro ⟨rfl | rfl, h⟩ <;> simp [h, Operator.sign]

theorem unary_sound (hg : g.expression.SoundAt 0) (hoperand : g.operand.SoundAt 7) :
    (unary g).SoundAt 7 := by
  intro c c' e hc h
  unfold unary at h
  rw [run_bind_of_ok run_current] at h
  split at h
  · rename_i op hop
    obtain ⟨hnegation, hsign⟩ := negation?_eq_some_iff.1 hop
    rw [run_bind_of_ok run_advance] at h
    obtain ⟨operand, c₁, hread, h⟩ := run_bind_eq_ok.1 h
    obtain ⟨rfl, rfl⟩ := run_pure_eq_ok.1 h
    obtain ⟨hwf, hlevel, hspells, hstop⟩ := hoperand hc.advance hread
    exact ⟨⟨hnegation, hlevel, hwf⟩, Nat.le_refl _, .cons hsign hspells, hstop⟩
  · obtain ⟨hwf, hlevel, hspells, hstop⟩ := call_sound hg hc h
    refine ⟨hwf, by omega, hspells, fun hext => ?_⟩
    obtain ⟨w, hw, hb⟩ := hext.binding hstop
    rcases Word.binding?_cases hb with ⟨_, _⟩ | ⟨op, p, _, _, hp, _⟩ | ⟨_, _⟩ | ⟨_, _⟩ | ⟨_, _⟩ <;>
      omega

/-! ## Operations -/

theorem operation?_eq_some_iff {least : Int} {t : Token} {op : Operator} {p : Nat} :
    operation? least t = some (op, p) ↔
      t.word? = some (.operator op.spelling) ∧ op.precedence? = some p ∧ least ≤ p := by
  have hword : t.word? = some (.operator op.spelling) ↔
      t.kind = .operator ∧ t.lexeme = op.spelling := by
    have his := Token.is_operator (t := t) op.spelling
    rw [Bool.eq_iff_iff, decide_eq_true_iff] at his
    rw [← his]
    simp [Token.is]
  rw [hword]
  unfold operation?
  constructor
  · intro h
    split at h
    · rename_i hkind
      split at h
      · simp at h
      · rename_i op' hop'
        rw [Operator.ofSpelling?_eq_some_iff] at hop'
        split at h
        · simp at h
        · rename_i p' hp'
          split at h
          · cases h; exact ⟨⟨hkind, hop'.symm⟩, hp', by assumption⟩
          · simp at h
    · simp at h
  · rintro ⟨⟨hkind, hlexeme⟩, hp, hle⟩
    simp [hkind, hlexeme, Operator.ofSpelling?_spelling, hp, hle]

/-- Operations of the level `k` and above it: those that bind at least as tightly as `least`. -/
def Admits (least : Int) (k : Nat) : Prop :=
  ∀ p : Nat, 1 ≤ p → p ≤ 4 → (least ≤ p ↔ k ≤ p + 2)

/-- Where `operation` declines, the token binds less tightly than the level asks or not at all. -/
theorem lt_of_operation_declines {right : Int → Reading Expr} {least : Int} {k : Nat}
    (hleast : Admits least k) {left : Expr} {c c' : Cursor}
    (h : (operation least right left).run c = .ok none c') :
    c' = c ∧ ∀ (op : Operator) (p : Nat), c.current.word? = some (.operator op.spelling) →
      op.precedence? = some p → p + 2 < k := by
  unfold operation at h
  rw [run_bind_of_ok run_current] at h
  split at h
  · rename_i hop
    obtain ⟨-, rfl⟩ := run_pure_eq_ok.1 h
    refine ⟨rfl, fun op p hw hp => Nat.lt_of_not_le fun hle => ?_⟩
    obtain ⟨hp1, hp4⟩ : 1 ≤ p ∧ p ≤ 4 := Operator.precedence?_le hp
    have hsome := operation?_eq_some_iff.2 ⟨hw, hp, (hleast p hp1 hp4).2 hle⟩
    simp [hop] at hsome
  · obtain ⟨_, _, _, h⟩ := run_bind_eq_ok.1 h
    obtain ⟨_, _, _, h⟩ := run_bind_eq_ok.1 h
    simp at h

/-- One `operation`. The token behind what stands on its `left` binds no more tightly than that
    does, and so it is behind the operation. -/
theorem operation_sound {right : Int → Reading Expr} {least : Int} {k : Nat}
    (hleast : Admits least k)
    (hright : ∀ p : Nat, p ≤ 4 → k ≤ p + 2 → (right (p + 1)).SoundAt (p + 3))
    {left e : Expr} {c c' : Cursor} (hc : c.Closed) (hwf : left.WellFormed)
    (hstop : ¬ c.Extends (min 7 (left.level + 1)))
    (h : (operation least right left).run c = .ok (some e) c') :
    e.WellFormed ∧ k ≤ e.level ∧ ¬ c'.Extends (min 7 (e.level + 1)) ∧
      ∃ w words, e.spelled = left.spelled ++ w :: words ∧ c.Spells (w :: words) c' := by
  unfold operation at h
  rw [run_bind_of_ok run_current] at h
  split at h
  · simp at h
  · rename_i op p hop
    obtain ⟨hw, hp, hle⟩ := operation?_eq_some_iff.1 hop
    obtain ⟨hp1, hp4⟩ : 1 ≤ p ∧ p ≤ 4 := Operator.precedence?_le hp
    have hkp : k ≤ p + 2 := (hleast p hp1 hp4).1 hle
    have hlevel : op.level = p + 2 := Operator.level_of_precedence? hp
    have hleft : p + 2 < min 7 (left.level + 1) :=
      Nat.lt_of_not_le fun hle => hstop ⟨_, _, hw, Word.binding?_spelling hp, hle⟩
    rw [run_bind_of_ok run_advance] at h
    obtain ⟨operand, c₁, hread, h⟩ := run_bind_eq_ok.1 h
    obtain ⟨hsome, rfl⟩ := run_pure_eq_ok.1 h
    cases hsome
    obtain ⟨hwf', hlevel', hspells, hstop'⟩ := hright p hp4 hkp hc.advance hread
    refine ⟨⟨by simp [hp], by omega, by omega, hwf, hwf'⟩, ?_, ?_, _, _, rfl, .cons hw hspells⟩
    · simp only [Expr.level]; omega
    · simp only [Expr.level, hlevel]
      exact fun hext => hstop' (hext.mono (by omega))

theorem climb_sound {operand : Reading Expr} (hoperand : operand.SoundAt 7) {levels : Nat}
    {least : Int} {k : Nat} (hlevels : 7 ≤ levels + k) (hk : 3 ≤ k) (hk' : k ≤ 7)
    (hleast : Admits least k) : (climb operand levels least).SoundAt k := by
  induction levels generalizing least k with
  | zero =>
    intro c c' e hc h
    obtain rfl : k = 7 := by omega
    exact hoperand hc h
  | succ levels ih =>
    intro c c' e hc h
    have hright : ∀ p : Nat, p ≤ 4 → k ≤ p + 2 →
        (climb operand levels (p + 1)).SoundAt (p + 3) :=
      fun p _ _ => ih (by omega) (by omega) (by omega) fun q _ _ => by omega
    unfold climb at h
    obtain ⟨first, c₁, hfirst, hloop⟩ := run_bind_eq_ok.1 h
    obtain ⟨hwf, hlevel, hspells, hstop⟩ := hoperand hc hfirst
    obtain ⟨c₂, _, ⟨hwf, hlevel, hspells, hstop⟩, hdecline⟩ := repeatFrom_invariant
      (I := fun left c₁ => left.WellFormed ∧ k ≤ left.level ∧ c.Spells left.spelled c₁ ∧
        ¬ c₁.Extends (min 7 (left.level + 1)))
      (by
        rintro left e c₁ c₂ hc₁ ⟨hwf, _, hspells, hstop⟩ hstep
        obtain ⟨hwf', hlevel', hstop', w, words, hspelled, hpassed⟩ :=
          operation_sound hleast hright hc₁ hwf hstop hstep
        exact ⟨⟨hwf', hlevel', hspelled ▸ hspells.append hpassed, hstop'⟩, w, words, hpassed⟩)
      (hspells.closed hc) ⟨hwf, by omega, hspells, fun hext => hstop (hext.mono (by omega))⟩ hloop
    obtain ⟨rfl, hless⟩ := lt_of_operation_declines hleast hdecline
    refine ⟨hwf, hlevel, hspells, ?_⟩
    rintro ⟨w, b, hw, hb, hkb⟩
    rcases Word.binding?_cases hb with ⟨rfl, _⟩ | ⟨op, p, hp, rfl, rfl, _⟩ | ⟨rfl, _⟩ |
      ⟨rfl, _⟩ | ⟨rfl, _⟩
    · exact hstop ⟨w, 8, hw, hb, by omega⟩
    · have := hless op p hw hp
      omega
    all_goals omega

theorem binary_sound (hg : g.expression.SoundAt 0) (hoperand : g.operand.SoundAt 7) :
    (binary g 1).SoundAt 3 := by
  have hleast : Admits 1 3 := fun p _ _ => by omega
  have hlevels : 7 ≤ Operator.levels + 3 := by decide
  exact climb_sound (unary_sound hg hoperand) hlevels (by omega) (by omega) hleast

theorem keywordValue?_spelling {op : Operator} (hop : op = .and ∨ op = .or) :
    keywordValue? op.spelling = none := by
  rcases hop with rfl | rfl <;> rfl

/-- A keyword and its right operand, which `junction` reads behind what is on the level of the
    keyword or above it. -/
theorem junction_sound {op : Operator} {operand : Reading Expr} (hop : op = .and ∨ op = .or)
    (hoperand : operand.SoundAt (op.level + 1)) {left e : Expr} {c c' : Cursor} (hc : c.Closed)
    (hwf : left.WellFormed) (hlevel : op.level ≤ left.level)
    (hw : c.current.word? = some (.keyword op.spelling))
    (h : (junction op operand left).run c = .ok e c') :
    e.WellFormed ∧ op.level ≤ e.level ∧ ¬ c'.Extends (op.level + 1) ∧
      ∃ words, e.spelled = left.spelled ++ .keyword op.spelling :: words ∧
        c.Spells (.keyword op.spelling :: words) c' := by
  unfold junction at h
  rw [run_bind_of_ok run_advance] at h
  obtain ⟨right, c₁, hright, h⟩ := run_bind_eq_ok.1 h
  obtain ⟨rfl, rfl⟩ := run_pure_eq_ok.1 h
  obtain ⟨hwf', hlevel', hspells, hstop⟩ := hoperand hc.advance hright
  exact ⟨⟨hop, hlevel, hlevel', hwf, hwf'⟩, Nat.le_refl _, hstop, _, rfl, .cons hw hspells⟩

theorem joined_sound {op : Operator} {operand : Reading Expr} (hop : op = .and ∨ op = .or)
    (hoperand : operand.SoundAt (op.level + 1)) : (joined op operand).SoundAt op.level := by
  intro c c' e hc h
  unfold joined at h
  obtain ⟨first, c₁, hfirst, hloop⟩ := run_bind_eq_ok.1 h
  obtain ⟨hwf, hlevel, hspells, hstop⟩ := hoperand hc hfirst
  obtain ⟨⟨hwf, hlevel, hspells, hstop⟩, hother⟩ := whileSees_invariant
    (I := fun left c₁ => left.WellFormed ∧ op.level ≤ left.level ∧ c.Spells left.spelled c₁ ∧
      ¬ c₁.Extends (op.level + 1))
    (fun _ => run_seesKeyword (keywordValue?_spelling hop))
    (by
      rintro left e c₁ c₂ hc₁ ⟨hwf, hlevel, hspells, hstop⟩ hw hstep
      obtain ⟨hwf', hlevel', hstop', words, hspelled, hpassed⟩ :=
        junction_sound hop hoperand hc₁ hwf hlevel hw hstep
      exact ⟨⟨hwf', hlevel', hspelled ▸ hspells.append hpassed, hstop'⟩, _, _, hpassed⟩)
    (hspells.closed hc) ⟨hwf, by omega, hspells, hstop⟩ hloop
  refine ⟨hwf, hlevel, hspells, fun hext => ?_⟩
  obtain ⟨w, hw, hb⟩ := hext.binding hstop
  rcases hop with rfl | rfl <;>
    rcases Word.binding?_cases hb with
      ⟨h, _⟩ | ⟨op, p, _, _, h, _⟩ | ⟨h, rfl⟩ | ⟨h, rfl⟩ | ⟨h, _⟩ <;>
    first
    | exact hother hw
    | simp only [Operator.level] at h; omega

theorem disjunction_sound (hg : g.expression.SoundAt 0) (hoperand : g.operand.SoundAt 7) :
    (disjunction g).SoundAt 1 :=
  joined_sound (.inr rfl) (joined_sound (.inl rfl) (binary_sound hg hoperand))

theorem assignment_sound (hg : g.expression.SoundAt 0) (hoperand : g.operand.SoundAt 7) :
    (assignment g).SoundAt 0 := by
  intro c c' e hc h
  unfold assignment at h
  obtain ⟨target, c₁, htarget, h⟩ := run_bind_eq_ok.1 h
  obtain ⟨hwf, hlevel, hspells, hstop⟩ := disjunction_sound hg hoperand hc htarget
  have hc₁ := hspells.closed hc
  rw [run_bind_of_ok run_current] at h
  split at h
  · rename_i hequals
    rw [Token.is_operator, decide_eq_true_iff] at hequals
    rw [run_bind_of_ok run_advance] at h
    obtain ⟨value, c₂, hvalue, h⟩ := run_bind_eq_ok.1 h
    obtain ⟨hwf', -, hspells', hstop'⟩ := hg hc₁.advance hvalue
    split at h
    · obtain ⟨rfl, rfl⟩ := run_pure_eq_ok.1 h
      exact ⟨hwf', Nat.le_refl _, hspells.append (.cons hequals hspells'), hstop'⟩
    · simp at h
  · rename_i hequals
    obtain ⟨rfl, rfl⟩ := run_pure_eq_ok.1 h
    refine ⟨hwf, by omega, hspells, fun hext => ?_⟩
    obtain ⟨w, hw, hb⟩ := hext.binding hstop
    rcases Word.binding?_cases hb with ⟨_, _⟩ | ⟨op, p, _, _, _, _⟩ | ⟨_, _⟩ | ⟨_, _⟩ | ⟨_, rfl⟩
    case inr.inr.inr.inr => exact hequals (by simp [Token.is_operator, hw])
    all_goals omega

end Grammar

end Scripting
