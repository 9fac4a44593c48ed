import Scripting.Program

set_option autoImplicit false

/-! # Reading tokens

A `Cursor` stands on one token of a sequence and moves forward only. It also counts the `loops` and
the `functions` around the place that is being read, since jumps and returns are allowed inside them
only. A `Reading` moves the cursor and gives a result, or is refused; the cursor then stays where
the refusal happened. -/

namespace Scripting

/-! ## Cursors -/

/-- A place in a sequence of tokens: the token there (`current`), those still `ahead`, those passed
    (`behind`), the last one first, and the numbers of `loops` and `functions` around the place. -/
structure Cursor where
  behind : List Token
  current : Token
  ahead : List Token
  loops : Nat
  functions : Nat
  deriving DecidableEq

namespace Cursor

/-- A cursor on the first of a sequence of tokens, which must close with an end of input. -/
def ofTokens? : List Token → Option Cursor
  | [] => none
  | t :: rest =>
    if ((t :: rest).getLast (by simp)).isEnd then
      some { behind := [], current := t, ahead := rest, loops := 0, functions := 0 }
    else none

/-- The sequence of tokens in which the cursor `c` stands, those that are passed included. -/
def tokens (c : Cursor) : List Token :=
  c.behind.reverse ++ c.current :: c.ahead

/-- How many tokens are passed. -/
def passed (c : Cursor) : Nat :=
  c.behind.length

/-- Move to the next token. An end of input is never passed, even where tokens follow it. -/
def advance (c : Cursor) : Cursor :=
  if c.current.isEnd then c
  else match c.ahead with
    | [] => c
    | t :: rest => { c with behind := c.current :: c.behind, current := t, ahead := rest }

/-- The token `n` places further on, or the last one if there are fewer. A place before the first
    token is counted from the end of the sequence back, as far as there are tokens. -/
def peek? (c : Cursor) (n : Int) : Option Token :=
  let place := min (c.passed + n) (c.tokens.length - 1)
  let place := if place < 0 then place + c.tokens.length else place
  if place < 0 then none else c.tokens[place.toNat]?

/-- Count one more of the `loops` around the cursor. -/
def enterLoop (c : Cursor) : Cursor :=
  { c with loops := c.loops + 1 }

/-- Count one of the `loops` less. -/
def leaveLoop (c : Cursor) : Cursor :=
  { c with loops := c.loops - 1 }

/-- Count one more of the `functions` around the cursor. A loop around the function is none around
    its body. -/
def enterFunction (c : Cursor) : Cursor :=
  { c with loops := 0, functions := c.functions + 1 }

/-- Count one of the `functions` less, and as many `loops` as were counted in front of the
    function. -/
def leaveFunction (loops : Nat) (c : Cursor) : Cursor :=
  { c with loops, functions := c.functions - 1 }

/-- `advance` leaves the sequence as it is. -/
@[simp] theorem tokens_advance (c : Cursor) : c.advance.tokens = c.tokens := by
  unfold advance
  split
  · rfl
  · split
    · rfl
    · simp_all [tokens]

/-- A cursor moves forward only. -/
theorem passed_le_advance (c : Cursor) : c.passed ≤ c.advance.passed := by
  unfold advance
  split
  · exact Nat.le_refl _
  · split
    · exact Nat.le_refl _
    · simp [passed]

/-- The `current` token has the number of those `passed`. -/
theorem getElem?_tokens_passed (c : Cursor) : c.tokens[c.passed]? = some c.current := by
  simp [tokens, passed]

/-- `peek?` at no distance gives the token under the cursor. -/
@[simp] theorem peek?_zero (c : Cursor) : c.peek? 0 = some c.current := by
  have h : c.passed < c.tokens.length := by simp [tokens, passed]
  have hp : min ((c.passed : Int) + 0) (c.tokens.length - 1) = c.passed := by omega
  have hn : ¬ (c.passed : Int) < 0 := by omega
  simp only [peek?, hp, if_neg hn, Int.toNat_natCast]
  exact c.getElem?_tokens_passed

@[simp] theorem loops_advance (c : Cursor) : c.advance.loops = c.loops := by
  unfold advance; split
  · rfl
  · split <;> rfl

@[simp] theorem functions_advance (c : Cursor) : c.advance.functions = c.functions := by
  unfold advance; split
  · rfl
  · split <;> rfl

end Cursor

/-! ## Readings -/

/-- Why a reading is refused: the tokens depart from the grammar (`fault`), or they are nested more
    deeply than the reading may go (`tooDeep`). -/
inductive Refusal where
  | fault (f : Fault)
  | tooDeep
  deriving DecidableEq

/-- A reading of some tokens from a cursor on. -/
abbrev Reading := EStateM Refusal Cursor

namespace Reading

/-- The token under the cursor. -/
def current : Reading Token := do
  return (← get).current

/-- Whether the token under the cursor has the given `kind` and, if a `lexeme` is given, that
    text. -/
def check (kind : TokenKind) (lexeme : Option String) : Reading Bool := do
  return (← current).matches? kind lexeme

/-- Whether the token under the cursor has the given `kind` and the text `lexeme`. -/
def sees (kind : TokenKind) (lexeme : String) : Reading Bool :=
  check kind (some lexeme)

/-- Take the token under the cursor. -/
def advance : Reading Token := do
  let t ← current
  modify Cursor.advance
  return t

/-- Refuse the token `t`, as it violates the grammar by `v`. -/
def refuseAt {α : Type} (v : Violation) (t : Token) : Reading α :=
  throw (.fault (.atToken v t))

/-- Refuse the token under the cursor, as `what` is due. -/
def expected {α : Type} (what : Expectation) : Reading α := do
  refuseAt (.expected what) (← current)

/-- Take the token under the cursor if it has the given `kind` and, if a `lexeme` is given, that
    text; refuse it otherwise. -/
def take (kind : TokenKind) (lexeme : Option String) : Reading Token := do
  if ← check kind lexeme then advance else expected (.token kind lexeme)

/-- Take a token with the given `kind` and the text `lexeme`. -/
def eat (kind : TokenKind) (lexeme : String) : Reading Token :=
  take kind (some lexeme)

/-- Take the mark of punctuation `lexeme`. -/
def eatMark (lexeme : String) : Reading Token :=
  eat .punctuation lexeme

/-- Repeat `step` from a value on until it declines, for at most as many rounds as there are
    elements in the list given for the purpose. -/
def repeatWithin {α β : Type} (step : α → Reading (Option α)) : List β → α → Reading α
  | [], a => return a
  | _ :: rounds, a => do
    match ← step a with
    | none => return a
    | some b => repeatWithin step rounds b

/-- Repeat `step` from the value `a` on until it declines. A step that accepts takes a token, so
    that no more rounds are needed than there are tokens. -/
def repeatFrom {α : Type} (step : α → Reading (Option α)) (a : α) : Reading α := fun c =>
  repeatWithin step (c.current :: c.ahead) a c

/-- Repeat `step` from the value `a` on while the token under the cursor has the given `kind` and
    the text `lexeme`. -/
def whileSees {α : Type} (kind : TokenKind) (lexeme : String) (step : α → Reading α) (a : α) :
    Reading α :=
  repeatFrom (fun a => do
    if ← sees kind lexeme then
      let b ← step a
      return some b
    else
      return none) a

/-- Read from the cursor that `enter` makes, and apply `leave` at the end, be it a success or a
    refusal. `leave` is given the cursor from before, for what it saves of it. -/
def surrounded {α : Type} (enter : Cursor → Cursor) (leave : Cursor → Cursor → Cursor)
    (r : Reading α) : Reading α := fun c =>
  match r (enter c) with
  | .ok a c' => .ok a (leave c c')
  | .error e c' => .error e (leave c c')

/-- Read the body of a loop with `r`. -/
def insideLoop {α : Type} (r : Reading α) : Reading α :=
  surrounded Cursor.enterLoop (fun _ => Cursor.leaveLoop) r

/-- Read the body of a function with `r`. The count of `loops` is saved in front of it. -/
def insideFunction {α : Type} (r : Reading α) : Reading α :=
  surrounded Cursor.enterFunction (fun c => Cursor.leaveFunction c.loops) r

end Reading

/-! ## Nesting -/

/-- The parts of the grammar that contain one another, as they are read one level further in. -/
structure Nested where
  expression : Reading Expr
  operand : Reading Expr
  statement : Reading Stmt
  conditional : Reading Stmt

/-- Where no further level is allowed, every part that would begin one is refused. -/
def Nested.none : Nested where
  expression := throw .tooDeep
  operand := throw .tooDeep
  statement := throw .tooDeep
  conditional := throw .tooDeep

end Scripting
