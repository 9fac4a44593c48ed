import Scripting.Proofs.Grammar.Progress
import Scripting.Proofs.Grammar.StatementAlike

set_option autoImplicit false

/-! # Readings asked for one after the other

The productions can be asked for one by one and in any order, each where the one before has left the
cursor, be it that it succeeded or that it was refused in the middle of a statement. Whatever is
`Asked` for, the cursor stays in its sequence, in front of the first end of input or on it, and the
counts of loops and functions are those from before. -/

namespace Scripting

/-- The cursor that the reading `r` leaves behind, however it ends. -/
def Reading.leaves {α : Type} (r : Reading α) (c : Cursor) : Cursor :=
  match r.run c with
  | .ok _ c' => c'
  | .error _ c' => c'

namespace Grammar

open Reading

/-! ## Requests -/

/-- The productions that read an expression or a statement. -/
inductive Part where
  | primary
  | call
  | unary
  | binary (least : Int)
  | conjunction
  | disjunction
  | assignment
  | expression
  | block
  | statement
  | declaration
  | printStatement
  | conditional
  | loop
  | jump (which : Jump)
  | function
  | result
  | expressionStatement

/-- Read a part. -/
def Part.read (g : Nested) : Part → Reading (Expr ⊕ Stmt)
  | .primary => Sum.inl <$> Grammar.primary g
  | .call => Sum.inl <$> Grammar.call g
  | .unary => Sum.inl <$> Grammar.unary g
  | .binary least => Sum.inl <$> Grammar.binary g least
  | .conjunction => Sum.inl <$> Grammar.conjunction g
  | .disjunction => Sum.inl <$> Grammar.disjunction g
  | .assignment => Sum.inl <$> Grammar.assignment g
  | .expression => Sum.inl <$> Grammar.expression g
  | .block => Sum.inr <$> Grammar.block g
  | .statement => Sum.inr <$> Grammar.statement g
  | .declaration => Sum.inr <$> Grammar.declaration g
  | .printStatement => Sum.inr <$> Grammar.printStatement g
  | .conditional => Sum.inr <$> Grammar.conditional g
  | .loop => Sum.inr <$> Grammar.loop g
  | .jump which => Sum.inr <$> Grammar.jump which
  | .function => Sum.inr <$> Grammar.function g
  | .result => Sum.inr <$> Grammar.result g
  | .expressionStatement => Sum.inr <$> Grammar.expressionStatement g

/-- What can be asked for at a cursor. -/
inductive Request where
  /-- The token `places` further on. -/
  | peek (places : Nat)
  | check (kind : TokenKind) (lexeme : Option String)
  | advance
  | take (kind : TokenKind) (lexeme : Option String)
  | part (p : Part)
  /-- All statements up to the end of input. -/
  | program

/-- What is given for a request. -/
inductive Answer where
  | token (t : Option Token)
  | truth (b : Bool)
  | part (read : Expr ⊕ Stmt)
  | program (p : Program)

/-- Do what is asked for. -/
def Request.perform (g : Nested) : Request → Reading Answer
  | .peek places => do return .token ((← get).peek? places)
  | .check kind lexeme => Answer.truth <$> Reading.check kind lexeme
  | .advance => (fun t => .token (some t)) <$> Reading.advance
  | .take kind lexeme => (fun t => .token (some t)) <$> Reading.take kind lexeme
  | .part p => Answer.part <$> p.read g
  | .program => Answer.program <$> Grammar.program g

/-- A `request`, and the levels that nesting may go on for in it, its `room`. -/
structure Asked where
  room : Nat
  request : Request

/-- The reading that is `Asked` for. -/
def Asked.reading (q : Asked) : Reading Answer :=
  q.request.perform (nested q.room)

end Grammar

/-- The cursor behind the requests in `asked`, those included that were refused. -/
def Cursor.after (c : Cursor) (asked : List Grammar.Asked) : Cursor :=
  asked.foldl (fun c q => q.reading.leaves c) c

/-! ## What every reading keeps to -/

/-- Whether the cursor `c` stands in the sequence `tokens`, which closes with an end of input, and
    has passed none. -/
structure Cursor.StandsIn (tokens : List Token) (c : Cursor) : Prop where
  tokens_eq : c.tokens = tokens
  closed : c.Closed
  passed : ∀ t ∈ c.behind, t.isEnd = false

namespace Cursor.StandsIn

variable {tokens : List Token} {c c' : Cursor}

theorem advance (h : c.StandsIn tokens) : c.advance.StandsIn tokens where
  tokens_eq := c.tokens_advance.trans h.tokens_eq
  closed := h.closed.advance
  passed := by
    unfold Cursor.advance
    split
    · exact h.passed
    · rename_i hend
      split
      · exact h.passed
      · intro t ht
        rcases List.mem_cons.1 ht with rfl | hbehind
        · simpa using hend
        · exact h.passed t hbehind

theorem leads (h : c.StandsIn tokens) (hleads : c.Leads c') : c'.StandsIn tokens :=
  hleads.induct (fun _ => advance) h

/-- An end of input is `ahead` or under the cursor. -/
theorem passed_le (h : c.StandsIn tokens) {i : Nat} {t : Token} (ht : tokens[i]? = some t)
    (hend : t.isEnd = true) : c.passed ≤ i := by
  by_contra hlt
  rw [Nat.not_le, Cursor.passed, ← List.length_reverse] at hlt
  rw [← h.tokens_eq, Cursor.tokens, List.getElem?_append_left hlt] at ht
  have hbehind : t ∈ c.behind := List.mem_reverse.1 (List.mem_of_getElem? ht)
  simp [h.passed t hbehind] at hend

theorem getElem? (h : c.StandsIn tokens) : tokens[c.passed]? = some c.current := by
  rw [← h.tokens_eq]
  exact c.getElem?_tokens_passed

end Cursor.StandsIn

/-- A place that is not before the first token is a place in the sequence, where `peek?` finds a
    token. -/
theorem Cursor.peek?_natCast (c : Cursor) (places : Nat) :
    ∃ t, c.tokens[min (c.passed + places) (c.tokens.length - 1)]? = some t ∧
      c.peek? places = some t := by
  have hlength := c.length_tokens
  have hmin : min ((c.passed : Int) + places) (c.tokens.length - 1) =
      (min (c.passed + places) (c.tokens.length - 1) : Nat) := by omega
  have hplace : min (c.passed + places) (c.tokens.length - 1) < c.tokens.length := by omega
  refine ⟨_, List.getElem?_eq_getElem hplace, ?_⟩
  have hnonneg : ¬ ((min (c.passed + places) (c.tokens.length - 1) : Nat) : Int) < 0 := by omega
  simp only [peek?, hmin, if_neg hnonneg, Int.toNat_natCast]
  exact List.getElem?_eq_getElem hplace

namespace Reading

variable {α β : Type} {r : Reading α} {room k : Nat}

theorem Proceeds.map (f : α → β) (h : r.Proceeds room k) : (f <$> r).Proceeds room k := by
  rw [map_eq_pure_bind]
  exact .first h fun a => .pure (f a)

theorem Orderly.map (f : α → β) (h : r.Orderly) : (f <$> r).Orderly := by
  rw [map_eq_pure_bind]
  exact .bind h fun a => .pure (f a)

end Reading

namespace Grammar

open Reading

theorem Part.read_proceeds {g : Nested} {n : Nat} (hg : g.Proceeds n) (p : Part) :
    (p.read g).Proceeds (n + 1) 1 := by
  cases p with
  | primary => exact (primary_proceeds hg).map _
  | call => exact (call_proceeds hg).map _
  | unary => exact (unary_proceeds hg).map _
  | binary least => exact (binary_proceeds hg least).map _
  | conjunction => exact (conjunction_proceeds hg).map _
  | disjunction => exact (disjunction_proceeds hg).map _
  | assignment => exact (expression_proceeds hg).map _
  | expression => exact (expression_proceeds hg).map _
  | block => exact (block_proceeds hg).map _
  | statement => exact (statement_proceeds hg).map _
  | declaration => exact (declaration_proceeds hg).map _
  | printStatement => exact (printStatement_proceeds hg).map _
  | conditional => exact (conditional_proceeds hg).map _
  | loop => exact (loop_proceeds hg).map _
  | jump which => exact (jump_proceeds which).map _
  | function => exact (function_proceeds hg).map _
  | result => exact (result_proceeds hg).map _
  | expressionStatement => exact (expressionStatement_proceeds hg).map _

theorem Part.read_orderly {g : Nested} (hg : g.Orderly) (p : Part) : (p.read g).Orderly := by
  have hbinary (least : Int) : (Grammar.binary g least).Orderly :=
    climb_orderly (unary_orderly hg) _ least
  cases p with
  | primary => exact (primary_orderly hg).map _
  | call => exact (call_orderly hg).map _
  | unary => exact (unary_orderly hg).map _
  | binary least => exact (hbinary least).map _
  | conjunction => exact (joined_orderly .and (hbinary 1)).map _
  | disjunction => exact (disjunction_orderly hg).map _
  | assignment => exact (expression_orderly hg).map _
  | expression => exact (expression_orderly hg).map _
  | block => exact (block_orderly hg).map _
  | statement => exact (statement_orderly hg).map _
  | declaration => exact (declaration_orderly hg).map _
  | printStatement => exact (printStatement_orderly hg).map _
  | conditional => exact (conditional_orderly hg).map _
  | loop => exact (loop_orderly hg).map _
  | jump which => exact (jump_orderly which).map _
  | function => exact (function_orderly hg).map _
  | result => exact (result_orderly hg).map _
  | expressionStatement => exact (expressionStatement_orderly hg).map _

theorem Request.perform_proceeds {g : Nested} {n : Nat} (hg : g.Proceeds n) (q : Request) :
    (q.perform g).Proceeds (n + 1) 0 := by
  cases q with
  | peek places => exact .get fun _ => .pure _
  | check kind lexeme => exact Proceeds.map _ (fun _ _ => ProceedsAt.check (.pure _))
  | advance => exact Proceeds.advance.map _
  | take kind lexeme => exact Proceeds.map _ (.check fun _ => .ite .advance (.expected _))
  | part p => exact ((Part.read_proceeds hg p).mono (Nat.le_refl _) (Nat.zero_le _)).map _
  | program => exact (program_proceeds hg).map _

theorem Request.perform_orderly {g : Nested} (hg : g.Orderly) (q : Request) :
    (q.perform g).Orderly := by
  cases q with
  | peek places => exact .bind .get fun _ => .pure _
  | check kind lexeme => exact (Orderly.check kind lexeme).map _
  | advance => exact Orderly.advance.map _
  | take kind lexeme => exact (Orderly.take kind lexeme).map _
  | part p => exact (Part.read_orderly hg p).map _
  | program => exact (program_orderly hg).map _

/-- The repetitions that the productions of `g` consist of, each by its step. -/
inductive Repetition (g : Nested) : {α : Type} → (α → Reading (Option α)) → Prop
  | arguments : Repetition g (onSight .punctuation "," (oneMore fun _ => g.expression))
  | parameters (name : String) :
      Repetition g (onSight .punctuation "," (oneMore (parameter name)))
  | applications : Repetition g (onSight .punctuation "(" (application g))
  | operations (levels : Nat) (least : Int) :
      Repetition g (operation least (climb (unary g) levels))
  | conjunctions :
      Repetition g (onSight .keyword Operator.and.spelling (junction .and (binary g 1)))
  | disjunctions :
      Repetition g (onSight .keyword Operator.or.spelling (junction .or (conjunction g)))
  | block : Repetition g (oneMoreInBlock g)
  | program : Repetition g (oneMoreInProgram g)

theorem Repetition.stepsForward {g : Nested} {n : Nat} (hg : g.Proceeds n) {α : Type}
    {step : α → Reading (Option α)} (h : Repetition g step) : StepsForward n step := by
  cases h with
  | arguments => exact elements_stepsForward fun _ => hg.expression
  | parameters name => exact elements_stepsForward (parameter_proceeds name)
  | applications => exact (application_stepsForward hg).inner
  | operations levels least =>
    exact (operation_stepsForward least (climb_proceeds (unary_proceeds hg) levels)).inner
  | conjunctions => exact (junction_stepsForward .and (binary_proceeds hg 1)).inner
  | disjunctions => exact (junction_stepsForward .or (conjunction_proceeds hg)).inner
  | block => exact oneMoreInBlock_stepsForward hg
  | program => exact (oneMoreInProgram_stepsForward hg).inner

/-! ## One request -/

/-- What a request keeps to at the cursor `c`: it moves the cursor `forward` if at all and leaves
    the counts as they are; it is `refused` for a token, or for a depth that so many tokens have led
    to as it has `room` for levels; a part that is read takes a token, `taken`; and a token further
    on is there, `peeked`. -/
structure Asked.Honoured (q : Asked) (c : Cursor) : Prop where
  forward : c.passed ≤ (q.reading.leaves c).passed
  loops : (q.reading.leaves c).loops = c.loops
  functions : (q.reading.leaves c).functions = c.functions
  refused : ∀ e c', q.reading.run c = .error e c' →
    (∃ v t, e = .fault (.atToken v t)) ∨ e = .tooDeep ∧ c.passed + q.room < c'.passed
  taken : ∀ p answer c', q.request = .part p → q.reading.run c = .ok answer c' →
    c.passed < c'.passed
  peeked : ∀ places, q.request = .peek places →
    ∃ t, c.tokens[min (c.passed + places) (c.tokens.length - 1)]? = some t ∧
      q.reading.run c = .ok (.token (some t)) c

theorem Asked.leads (q : Asked) {c : Cursor} (hc : c.Closed) : c.Leads (q.reading.leaves c) := by
  have hproceeds := Request.perform_proceeds (nested_proceeds q.room) q.request hc
  unfold Reading.leaves
  split
  · rename_i answer c' hread
    exact (hproceeds.accepted hread).1
  · rename_i e c' hread
    exact (hproceeds.refused hread).1

theorem Asked.honoured (q : Asked) {c : Cursor} (hc : c.Closed) : q.Honoured c where
  forward := (q.leads hc).passed_le
  loops := (q.leads hc).loops_eq
  functions := (q.leads hc).functions_eq
  refused e c' hread := by
    rcases (Request.perform_orderly (nested_orderly q.room) q.request).blames hread with
      rfl | hblames
    · have hdeep := (Request.perform_proceeds (nested_proceeds q.room) q.request hc).refused hread
      exact .inr ⟨rfl, hdeep.2 rfl⟩
    · exact .inl hblames
  taken p answer c' hpart hread := by
    have hproceeds : q.reading.ProceedsAt c (q.room + 1) 1 := by
      rw [Asked.reading, hpart]
      exact (Part.read_proceeds (nested_proceeds q.room) p).map _ hc
    exact (hproceeds.accepted hread).2
  peeked places hpeek := by
    obtain ⟨t, ht, hpeeked⟩ := c.peek?_natCast places
    refine ⟨t, ht, ?_⟩
    rw [Asked.reading, hpeek, Request.perform, run_bind_of_ok run_get, hpeeked]
    rfl

end Grammar

/-! ## Any number of requests -/

open Reading

theorem Cursor.StandsIn.after {tokens : List Token} {c : Cursor} (h : c.StandsIn tokens)
    (asked : List Grammar.Asked) : (c.after asked).StandsIn tokens := by
  induction asked generalizing c with
  | nil => exact h
  | cons q asked ih => exact ih (h.leads (q.leads h.closed))

/-- A sequence of `tokens` that closes with an end of input can be read from its first token on.
    After any requests in any order, refused ones among them, the cursor is on the token with the
    number of those `passed` and has passed no end of input, and the next request is `Honoured`. No
    `Repetition` in any of them needs its bound on rounds. -/
theorem Grammar.requests_honoured {tokens : List Token} {last : Token}
    (hlast : tokens.getLast? = some last) (hend : last.isEnd = true) :
    (∃ start, Cursor.ofTokens? tokens = some start ∧ start.passed = 0 ∧
      ∀ asked : List Asked,
        tokens[(start.after asked).passed]? = some (start.after asked).current ∧
        (∀ i t, tokens[i]? = some t → t.isEnd = true → (start.after asked).passed ≤ i) ∧
        ∀ q : Asked, q.Honoured (start.after asked)) ∧
      ∀ (room : Nat) (α : Type) (step : α → Reading (Option α)), Repetition (nested room) step →
        ∀ a (c : Cursor), c.Closed → Repeats step a c ((repeatFrom step a).run c) := by
  refine ⟨?_, fun room α step hstep a c hc =>
    (hstep.stepsForward (nested_proceeds room)).repeats a hc⟩
  cases tokens with
  | nil => cases hlast
  | cons t rest =>
    let start : Cursor :=
      { behind := [], current := t, ahead := rest, loops := 0, functions := 0 }
    have hclosed : start.Closed := by
      have hlastD : rest.getLastD t = last := by simpa [List.getLast?_cons] using hlast
      rw [Cursor.Closed, hlastD]
      exact hend
    have hstands : start.StandsIn (t :: rest) :=
      ⟨rfl, hclosed, fun _ h => absurd h List.not_mem_nil⟩
    refine ⟨start, Cursor.ofTokens?_eq_some_iff.2 ⟨rfl, rfl, rfl, rfl, hclosed⟩, rfl, ?_⟩
    intro asked
    have hafter := hstands.after asked
    exact ⟨hafter.getElem?, fun i u hu huend => hafter.passed_le hu huend,
      fun q => q.honoured hafter.closed⟩

/-- The tokens of a function whose body breaks off inside a loop, and further ones behind the end of
    input. -/
def Grammar.brokenOff : List Token :=
  [.of .keyword "fn" .nil ⟨1, 1⟩, .of .identifier "f" .nil ⟨1, 4⟩,
    .of .punctuation "(" .nil ⟨1, 5⟩, .of .punctuation ")" .nil ⟨1, 6⟩,
    .of .punctuation openBrace .nil ⟨1, 8⟩, .of .keyword "while" .nil ⟨1, 10⟩,
    .of .keyword "true" .nil ⟨1, 16⟩, .of .punctuation openBrace .nil ⟨1, 21⟩,
    .of .endOfInput "" .nil ⟨1, 22⟩, .of .punctuation ";" .nil ⟨1, 23⟩,
    .of .endOfInput "" .nil ⟨1, 24⟩]

/-- A function refused in the middle of a loop in its body leaves the cursor on the first end of
    input, outside of the function and of the loop, and so the next request finds it. -/
theorem Grammar.requests_honoured_of_brokenOff :
    brokenOff.getLast? = some (.of .endOfInput "" .nil ⟨1, 24⟩) ∧
      (Token.of .endOfInput "" .nil ⟨1, 24⟩).isEnd = true ∧
      ∃ start, Cursor.ofTokens? brokenOff = some start ∧
        (start.after [⟨9, .part .function⟩]).passed = 8 ∧
        (Asked.mk 9 (.part .expression)).Honoured (start.after [⟨9, .part .function⟩]) := by
  have hlast : brokenOff.getLast? = some (.of .endOfInput "" .nil ⟨1, 24⟩) := rfl
  obtain ⟨⟨start, hstart, -, hasked⟩, -⟩ := requests_honoured hlast rfl
  refine ⟨hlast, rfl, start, hstart, ?_, (hasked [⟨9, .part .function⟩]).2.2 _⟩
  cases hstart
  rfl

end Scripting
