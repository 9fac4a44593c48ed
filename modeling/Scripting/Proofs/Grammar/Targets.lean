import Scripting.Proofs.Grammar.Spelling
import Scripting.Proofs.Grammar.WellFormed

set_option autoImplicit false

/-! # Signs of assignment

In a program of the grammar every `=` stands behind a variable, and the variable stands where an
expression begins, or behind `let`. This can be told of the words before the `=` alone, which are
`Targeted`. So words with an `=` behind anything else are the beginning of no program, whatever
follows. -/

namespace Scripting

/-! ## Words before a sign of assignment -/

/-- Whether a variable behind a word can be given a value: an expression begins there, or a
    declaration names its variable. -/
def Word.Introduces : Word → Prop
  | .mark s => s ∈ [";", "(", ",", Grammar.openBrace, Grammar.closeBrace]
  | .operator s => s = "="
  | .keyword s => s ∈ ["let", "print", "if", "while", "return"]
  | .literal _ | .name _ => False

/-- Whether a variable behind the words `before` can be given a value. -/
def Introduced (before : List Word) : Prop :=
  ∀ w ∈ before.getLast?, w.Introduces

/-- Whether the words `before` end in a variable that can be given a value. -/
def Targeted (before : List Word) : Prop :=
  ∃ front name, before = front ++ [.name name] ∧ Introduced front

/-- Whether every sign of assignment in `words` stands behind a variable that can be given a value,
    when `before` stands before them. -/
def AssignsBehind (before words : List Word) : Prop :=
  ∀ front rest, words = front ++ .operator "=" :: rest → Targeted (before ++ front)

/-- Whether every sign of assignment stands behind a variable that can be given a value. -/
def AssignsVariables (words : List Word) : Prop :=
  AssignsBehind [] words

/-- Whether some sign of assignment in `words` stands behind what is no such variable, whatever
    stands before them. -/
def Misassigned (words : List Word) : Prop :=
  ∃ front rest, words = front ++ .operator "=" :: rest ∧ ∀ before, ¬ Targeted (before ++ front)

@[simp] theorem introduced_nil : Introduced [] := by
  simp [Introduced]

@[simp] theorem introduced_concat {before : List Word} {w : Word} :
    Introduced (before ++ [w]) ↔ w.Introduces := by
  simp [Introduced]

theorem targeted_concat {before : List Word} {w : Word} :
    Targeted (before ++ [w]) ↔ (∃ name, w = .name name) ∧ Introduced before := by
  constructor
  · rintro ⟨front, name, hsplit, hfront⟩
    obtain ⟨rfl, hw⟩ := List.append_inj' hsplit rfl
    exact ⟨⟨name, by simpa using hw⟩, hfront⟩
  · rintro ⟨⟨name, rfl⟩, hbefore⟩
    exact ⟨before, name, rfl, hbefore⟩

namespace AssignsBehind

variable {before u v : List Word} {w : Word}

theorem nil (before : List Word) : AssignsBehind before [] := by
  intro front rest h
  simp at h

/-- A word that is no sign of assignment. -/
theorem single (hw : w ≠ .operator "=") : AssignsBehind before [w] := by
  intro front rest h
  cases front with
  | nil => exact absurd (List.head_eq_of_cons_eq h) hw
  | cons w' front => simp at h

theorem append (hu : AssignsBehind before u) (hv : AssignsBehind (before ++ u) v) :
    AssignsBehind before (u ++ v) := by
  intro front rest h
  rcases List.append_eq_append_iff.1 h with ⟨more, rfl, hmore⟩ | ⟨more, rfl, hmore⟩
  · have htarget := hv more rest hmore
    rwa [List.append_assoc] at htarget
  · cases more with
    | nil =>
      have htarget := hv [] rest (by simpa using hmore.symm)
      simpa using htarget
    | cons w more =>
      obtain ⟨rfl, -⟩ : Word.operator "=" = w ∧ rest = more ++ v := by simpa using hmore
      exact hu front more rfl

/-- A word that is no sign of assignment, and what follows. -/
theorem cons (hw : w ≠ .operator "=") (hv : AssignsBehind (before ++ [w]) v) :
    AssignsBehind before (w :: v) :=
  (single hw).append hv

/-- A sign of assignment behind a variable, and what follows. -/
theorem sign (htarget : Targeted before)
    (hv : AssignsBehind (before ++ [.operator "="]) v) :
    AssignsBehind before (.operator "=" :: v) := by
  intro front rest h
  cases front with
  | nil => simpa using htarget
  | cons w front =>
    obtain ⟨rfl, hrest⟩ : Word.operator "=" = w ∧ v = front ++ .operator "=" :: rest := by
      simpa using h
    simpa using hv front rest hrest

theorem left (h : AssignsBehind before (u ++ v)) : AssignsBehind before u := by
  rintro front rest rfl
  exact h front (rest ++ v) (by simp)

end AssignsBehind

namespace Misassigned

variable {words : List Word}

theorem append_left (h : Misassigned words) (u : List Word) : Misassigned (u ++ words) := by
  obtain ⟨front, rest, rfl, hfront⟩ := h
  refine ⟨u ++ front, rest, by simp, fun before => ?_⟩
  rw [← List.append_assoc]
  exact hfront (before ++ u)

theorem append_right (h : Misassigned words) (v : List Word) : Misassigned (words ++ v) := by
  obtain ⟨front, rest, rfl, hfront⟩ := h
  exact ⟨front, rest ++ v, by simp, hfront⟩

theorem not_assignsVariables (h : Misassigned words) : ¬ AssignsVariables words := by
  obtain ⟨front, rest, rfl, hfront⟩ := h
  exact fun hall => hfront [] (hall front rest rfl)

end Misassigned

/-! ## Expressions -/

theorem Operator.spelling_ne_equals (op : Operator) : op.spelling ≠ "=" := by
  cases op <;> decide

theorem Operator.sign_ne_equals (op : Operator) : op.sign ≠ "=" := by
  cases op <;> decide

/-- In a list each element has a word before it that `Introduces` it. -/
theorem AssignsBehind.commaSeparated {parts : List (List Word)} {before : List Word}
    (hbefore : Introduced before)
    (h : ∀ part ∈ parts, ∀ before, Introduced before → AssignsBehind before part) :
    AssignsBehind before (commaSeparated parts) := by
  induction parts generalizing before with
  | nil => exact .nil before
  | cons part rest ih =>
    have hpart := h part List.mem_cons_self before hbefore
    cases rest with
    | nil => exact hpart
    | cons next rest =>
      refine hpart.append (.cons (by simp) (ih ?_ fun part hmem => ?_))
      · exact introduced_concat.2 (by simp [Word.Introduces])
      · exact h part (List.mem_cons_of_mem _ hmem)

mutual

/-- An expression assigns to variables only. If it is an `assignment` itself, it must stand where an
    expression begins. -/
theorem Expr.assignsBehind : ∀ {e : Expr} {before : List Word}, e.WellFormed →
    Introduced before ∨ 1 ≤ e.level → AssignsBehind before e.spelled
  | .literal _ _, _, _, _ => .single (by simp)
  | .identifier _ _, _, _, _ => .single (by simp)
  | .unary op operand _, before, ⟨_, hlevel, hwf⟩, _ =>
    .cons (by simpa using op.sign_ne_equals) (assignsBehind hwf (.inr (by omega)))
  | .binary op left right _, before, ⟨hop, hleft, hright, hwf, hwf'⟩, _ => by
    have hpositive : 1 ≤ op.level := by cases op <;> decide
    exact (assignsBehind hwf (.inr (by omega))).append
      (.cons (by simpa using op.spelling_ne_equals) (assignsBehind hwf' (.inr (by omega))))
  | .logical op left right _, before, ⟨hop, hleft, hright, hwf, hwf'⟩, _ => by
    have hpositive : 1 ≤ op.level := by cases op <;> decide
    exact (assignsBehind hwf (.inr (by omega))).append
      (.cons (by simp) (assignsBehind hwf' (.inr (by omega))))
  | .call callee arguments _, before, ⟨hlevel, hwf, hwfs⟩, _ => by
    refine (assignsBehind hwf (.inr (by omega))).append (.cons (by simp) ?_)
    have hopen : (Word.mark "(").Introduces := by simp [Word.Introduces]
    refine .append (.commaSeparated (introduced_concat.2 hopen) ?_) (.single (by simp))
    rw [spelledEach_eq_map]
    intro part hpart
    obtain ⟨e, he, rfl⟩ := List.mem_map.1 hpart
    exact fun before hbefore => assignsBehind_of_mem hwfs e he hbefore
  | .assignment name value _, before, hwf, hbefore => by
    have hintroduced : Introduced before := hbefore.resolve_right (by simp [level])
    have hvalue : AssignsBehind (before ++ [.name name] ++ [.operator "="]) value.spelled :=
      assignsBehind hwf (.inl (introduced_concat.2 rfl))
    exact .cons (by simp) (.sign ⟨before, name, rfl, hintroduced⟩ hvalue)
  | .grouping inner _, before, hwf, _ => by
    have hopen : (Word.mark "(").Introduces := by simp [Word.Introduces]
    have hinner : AssignsBehind (before ++ [.mark "("]) inner.spelled :=
      assignsBehind hwf (.inl (introduced_concat.2 hopen))
    exact .cons (by simp) (hinner.append (.single (by simp)))
  | .stray _, _, hwf, _ => hwf.elim

theorem Expr.assignsBehind_of_mem : ∀ {es : List Expr}, Expr.AllWellFormed es →
    ∀ e ∈ es, ∀ {before : List Word}, Introduced before → AssignsBehind before e.spelled
  | e :: rest, ⟨hwf, hrest⟩, e', hmem, before, hbefore => by
    rcases List.mem_cons.1 hmem with heq | hmem
    · rw [heq]
      exact assignsBehind hwf (.inl hbefore)
    · exact assignsBehind_of_mem hrest e' hmem hbefore

end

/-- Of the operands of an `assignment` only a variable is one that can be given a value, and only
    where an expression begins. -/
theorem Expr.introduced_of_targeted : ∀ {e : Expr} {before : List Word}, e.WellFormed →
    1 ≤ e.level → Targeted (before ++ e.spelled) →
    Introduced before ∧ ∃ name p, e = .identifier name p
  | .literal _ _, _, _, _, h => by
    obtain ⟨⟨name, hname⟩, -⟩ := targeted_concat.1 h
    cases hname
  | .identifier name p, _, _, _, h => ⟨(targeted_concat.1 h).2, name, p, rfl⟩
  | .unary op operand _, before, ⟨hop, hlevel, hwf⟩, _, h => by
    rw [spelled, List.append_cons] at h
    obtain ⟨hsign, -⟩ := introduced_of_targeted hwf (by omega) h
    exact absurd (introduced_concat.1 hsign) op.sign_ne_equals
  | .binary op left right _, before, ⟨_, _, hlevel, _, hwf⟩, _, h => by
    rw [spelled, ← List.append_assoc, List.append_cons] at h
    obtain ⟨hop, -⟩ := introduced_of_targeted hwf (by omega) h
    exact absurd (introduced_concat.1 hop) op.spelling_ne_equals
  | .logical op left right _, before, ⟨hop, _, hlevel, _, hwf⟩, _, h => by
    rw [spelled, ← List.append_assoc, List.append_cons] at h
    obtain ⟨hjunction, -⟩ := introduced_of_targeted hwf (by omega) h
    have hintroduces : (Word.keyword op.spelling).Introduces := introduced_concat.1 hjunction
    rcases hop with rfl | rfl <;> simp [Operator.spelling, Word.Introduces] at hintroduces
  | .call callee arguments _, before, _, _, h => by
    rw [spelled, ← List.cons_append, ← List.append_assoc, ← List.append_assoc] at h
    obtain ⟨⟨name, hname⟩, -⟩ := targeted_concat.1 h
    cases hname
  | .assignment _ _ _, _, _, hlevel, _ => by simp [level] at hlevel
  | .grouping inner _, before, _, _, h => by
    rw [spelled, ← List.cons_append, ← List.append_assoc] at h
    obtain ⟨⟨name, hname⟩, -⟩ := targeted_concat.1 h
    cases hname
  | .stray _, _, hwf, _, _ => hwf.elim

/-- A sign of assignment behind a `target` that is no variable. -/
theorem Expr.misassigned {target : Expr} (hwf : target.WellFormed) (hlevel : 1 ≤ target.level)
    (hother : ∀ name p, target ≠ .identifier name p) (rest : List Word) :
    Misassigned (target.spelled ++ .operator "=" :: rest) := by
  refine ⟨target.spelled, rest, rfl, fun before htarget => ?_⟩
  obtain ⟨-, name, p, h⟩ := introduced_of_targeted hwf hlevel htarget
  exact hother name p h

/-! ## Statements -/

/-- The last word of a statement. -/
def Word.ClosesStatement (w : Word) : Prop :=
  w = .mark ";" ∨ w = .mark Grammar.closeBrace

theorem Word.ClosesStatement.introduces {w : Word} (h : w.ClosesStatement) : w.Introduces := by
  rcases h with rfl | rfl <;> simp [Introduces]

/-- A statement ends in a semicolon or in a closing brace. -/
theorem Stmt.exists_spelled_eq_concat : ∀ {s : Stmt} {w : Setting}, s.WellFormed w →
    ∃ words last, s.spelled = words ++ [last] ∧ last.ClosesStatement
  | .expression e _, _, _ => ⟨e.spelled, _, rfl, .inl rfl⟩
  | .print e _, _, _ => ⟨.keyword "print" :: e.spelled, _, rfl, .inl rfl⟩
  | .declaration name initializer _, _, _ =>
    ⟨.keyword "let" :: .name name :: Expr.spelledInitial initializer, _, rfl, .inl rfl⟩
  | .block statements _, _, _ =>
    ⟨.mark Grammar.openBrace :: Stmt.spelledAll statements, _, rfl, .inr rfl⟩
  | .conditional condition thenBranch none _, w, ⟨_, _, hthen, _⟩ => by
    obtain ⟨words, last, hwords, hlast⟩ := exists_spelled_eq_concat hthen
    exact ⟨.keyword "if" :: (condition.spelled ++ words), last, by
      simp [spelled, Stmt.spelledElse, hwords], hlast⟩
  | .conditional condition thenBranch (some s) _, w, ⟨_, _, _, _, helse⟩ => by
    obtain ⟨words, last, hwords, hlast⟩ := exists_spelled_eq_concat helse
    exact ⟨.keyword "if" :: (condition.spelled ++ (thenBranch.spelled ++ .keyword "else" :: words)),
      last, by simp [spelled, Stmt.spelledElse, hwords], hlast⟩
  | .loop condition body _, w, ⟨_, _, hbody⟩ => by
    obtain ⟨words, last, hwords, hlast⟩ := exists_spelled_eq_concat hbody
    exact ⟨.keyword "while" :: (condition.spelled ++ words), last, by simp [spelled, hwords], hlast⟩
  | .function name parameters body _, w, ⟨_, _, hbody⟩ => by
    obtain ⟨words, last, hwords, hlast⟩ := exists_spelled_eq_concat hbody
    exact ⟨.keyword "fn" :: .name name :: .mark "(" ::
      (commaSeparated (parameters.map fun p => [.name p]) ++ .mark ")" :: words), last, by
      simp [spelled, hwords], hlast⟩
  | .result value _, _, _ => ⟨.keyword "return" :: Expr.spelledOption value, _, rfl, .inl rfl⟩
  | .jump which _, _, _ => ⟨[.keyword which.keyword], _, rfl, .inl rfl⟩
  | .stray _ _, _, hwf => hwf.elim

/-- Behind a statement an expression can begin, as its last word `Introduces` one. -/
theorem Stmt.introduced_append {s : Stmt} {w : Setting} (hwf : s.WellFormed w)
    (before : List Word) : Introduced (before ++ s.spelled) := by
  obtain ⟨words, last, hwords, hlast⟩ := exists_spelled_eq_concat hwf
  rw [hwords, ← List.append_assoc, introduced_concat]
  exact hlast.introduces

theorem Stmt.IsBlock.isAlternative {s : Stmt} (h : s.IsBlock) : s.IsAlternative := by
  cases s <;> trivial

mutual

/-- A statement assigns to variables only. If it begins with an expression, that must stand where
    one begins. -/
theorem Stmt.assignsBehind : ∀ {s : Stmt} {w : Setting} {before : List Word}, s.WellFormed w →
    Introduced before ∨ s.IsAlternative → AssignsBehind before s.spelled
  | .expression e _, _, before, hwf, hbefore => by
    have hintroduced : Introduced before := hbefore.resolve_right (·.elim)
    exact (Expr.assignsBehind (e := e) hwf (.inl hintroduced)).append (.single (by simp))
  | .print e _, _, before, hwf, _ => by
    have hprint : (Word.keyword "print").Introduces := by simp [Word.Introduces]
    have he : AssignsBehind (before ++ [.keyword "print"]) e.spelled :=
      Expr.assignsBehind hwf (.inl (introduced_concat.2 hprint))
    exact .cons (by simp) (he.append (.single (by simp)))
  | .declaration name none _, _, before, _, _ =>
    .cons (by simp) (.cons (by simp) (.single (by simp)))
  | .declaration name (some e) _, _, before, hwf, _ => by
    have hlet : (Word.keyword "let").Introduces := by simp [Word.Introduces]
    have htarget : Targeted (before ++ [.keyword "let"] ++ [.name name]) :=
      ⟨_, name, rfl, introduced_concat.2 hlet⟩
    have he : AssignsBehind (before ++ [.keyword "let"] ++ [.name name] ++ [.operator "="])
        e.spelled :=
      Expr.assignsBehind (hwf e rfl) (.inl (introduced_concat.2 rfl))
    exact .cons (by simp) (.cons (by simp) ((AssignsBehind.sign htarget he).append
      (.single (by simp))))
  | .block statements _, w, before, hwf, _ => by
    have hopen : (Word.mark Grammar.openBrace).Introduces := by simp [Word.Introduces]
    have hall : AssignsBehind (before ++ [.mark Grammar.openBrace]) (spelledAll statements) :=
      assignsBehind_all hwf (introduced_concat.2 hopen)
    exact .cons (by simp) (hall.append (.single (by simp)))
  | .conditional condition thenBranch elseBranch _, w, before, ⟨hwf, hblock, hthen, helse⟩, _ => by
    have hif : (Word.keyword "if").Introduces := by simp [Word.Introduces]
    have hcondition : AssignsBehind (before ++ [.keyword "if"]) condition.spelled :=
      Expr.assignsBehind hwf (.inl (introduced_concat.2 hif))
    exact .cons (by simp) (hcondition.append
      ((assignsBehind hthen (.inr hblock.isAlternative)).append (assignsBehind_else helse)))
  | .loop condition body _, w, before, ⟨hwf, hblock, hbody⟩, _ => by
    have hwhile : (Word.keyword "while").Introduces := by simp [Word.Introduces]
    have hcondition : AssignsBehind (before ++ [.keyword "while"]) condition.spelled :=
      Expr.assignsBehind hwf (.inl (introduced_concat.2 hwhile))
    exact .cons (by simp) (hcondition.append (assignsBehind hbody (.inr hblock.isAlternative)))
  | .function name parameters body _, w, before, ⟨_, hblock, hbody⟩, _ => by
    have hopen : (Word.mark "(").Introduces := by simp [Word.Introduces]
    refine .cons (by simp) (.cons (by simp) (.cons (by simp) (.append ?_ (.cons (by simp)
      (assignsBehind hbody (.inr hblock.isAlternative))))))
    refine .commaSeparated (introduced_concat.2 hopen) fun part hpart before _ => ?_
    obtain ⟨p, -, rfl⟩ := List.mem_map.1 hpart
    exact .single (by simp)
  | .result none _, _, before, _, _ => .cons (by simp) (.single (by simp))
  | .result (some e) _, _, before, ⟨_, hwf⟩, _ => by
    have hreturn : (Word.keyword "return").Introduces := by simp [Word.Introduces]
    have he : AssignsBehind (before ++ [.keyword "return"]) e.spelled :=
      Expr.assignsBehind (hwf e rfl) (.inl (introduced_concat.2 hreturn))
    exact .cons (by simp) (he.append (.single (by simp)))
  | .jump which _, _, before, _, _ => .cons (by simp) (.single (by simp))
  | .stray _ _, _, _, hwf, _ => hwf.elim

theorem Stmt.assignsBehind_all : ∀ {ss : List Stmt} {w : Setting} {before : List Word},
    Stmt.AllWellFormed w ss → Introduced before → AssignsBehind before (Stmt.spelledAll ss)
  | [], _, before, _, _ => .nil before
  | _ :: _, _, before, ⟨hwf, hrest⟩, hbefore =>
    (assignsBehind hwf (.inl hbefore)).append
      (assignsBehind_all hrest (Stmt.introduced_append hwf before))

theorem Stmt.assignsBehind_else : ∀ {o : Option Stmt} {w : Setting} {before : List Word},
    Stmt.ElseWellFormed w o → AssignsBehind before (Stmt.spelledElse o)
  | none, _, before, _ => .nil before
  | some s, w, before, ⟨hshape, hwf⟩ => .cons (by simp) (assignsBehind hwf (.inr hshape))

end

/-- A well-formed program assigns to variables only. -/
theorem Program.assignsVariables {p : Program} (hwf : p.WellFormed) :
    AssignsVariables p.spelled :=
  Stmt.assignsBehind_all (Stmt.allWellFormed_iff.2 hwf) introduced_nil

end Scripting
