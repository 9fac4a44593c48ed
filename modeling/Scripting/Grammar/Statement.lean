import Scripting.Grammar.Expression
import Scripting.Token.Scan

set_option autoImplicit false

/-! # The grammar of statements

A `statement` begins with its keyword, or with the brace of a `block`, and is an expression
otherwise. Conditions stand without parentheses, so bodies are always blocks. Statements nest inside
blocks, and the conditional behind an `else` is nested in the one before it. `Program.ofTokens` and
`Program.ofSource` read whole programs. -/

namespace Scripting.Grammar

open Reading

/-- The marks around a block. -/
def openBrace : String := "\x7b"

@[inherit_doc openBrace]
def closeBrace : String := "\x7d"

/-- One more statement of a block behind those in `done`, the last one first. -/
def oneMoreInBlock (g : Nested) (done : List Stmt) : Reading (Option (List Stmt)) := do
  if ← sees .punctuation closeBrace then
    return none
  else if (← current).isEnd then
    -- the brace is due here, before any statement is tried
    expected (.token .punctuation (some closeBrace))
  else
    let s ← g.statement
    return some (s :: done)

/-- Statements between braces, each read as `oneMoreInBlock`. -/
def block (g : Nested) : Reading Stmt := do
  let t ← eatMark openBrace
  let reversed ← repeatFrom (oneMoreInBlock g) []
  let _ ← eatMark closeBrace
  return .block reversed.reverse t.position

/-- A declaration of a variable, with or without a first value. -/
def declaration (g : Nested) : Reading Stmt := do
  let t ← eat .keyword "let"
  if !(← check .identifier none) then expected .variableName
  let name ← advance
  let initializer ←
    if ← sees .operator "=" then do
      let _ ← advance
      let e ← expression g
      pure (some e)
    else
      pure none
  let _ ← eatMark ";"
  return .declaration name.lexeme initializer t.position

/-- An expression whose value is printed. -/
def printStatement (g : Nested) : Reading Stmt := do
  let t ← eat .keyword "print"
  let e ← expression g
  let _ ← eatMark ";"
  return .print e t.position

/-- What stands behind `else`: a block or a further conditional. -/
def alternative (g : Nested) : Reading Stmt := do
  if ← sees .keyword "if" then g.conditional else block g

/-- A conditional, with or without an alternative. -/
def conditional (g : Nested) : Reading Stmt := do
  let t ← eat .keyword "if"
  let condition ← expression g
  let thenBranch ← block g
  let elseBranch ←
    if ← sees .keyword "else" then do
      let _ ← advance
      let s ← alternative g
      pure (some s)
    else
      pure none
  return .conditional condition thenBranch elseBranch t.position

/-- A loop. -/
def loop (g : Nested) : Reading Stmt := do
  let t ← eat .keyword "while"
  let condition ← expression g
  let body ← insideLoop (block g)
  return .loop condition body t.position

/-- A jump, which must stand in a loop. -/
def jump (which : Jump) : Reading Stmt := do
  let t ← current
  if (← get).loops = 0 then refuseAt (.outsideLoop which) t
  let _ ← advance
  let _ ← eatMark ";"
  return .jump which t.position

/-- A parameter of the function `name`, with a name that is not among those in `done`. -/
def parameter (name : String) (done : List String) : Reading String := do
  let t ← take .identifier none
  if done.contains t.lexeme then refuseAt (.duplicateParameter t.lexeme name) t
  return t.lexeme

/-- The parameters of the function `name` behind the opening parenthesis, up to the closing one. -/
def parameters (name : String) : Reading (List String) :=
  elements (parameter name)

/-- A declaration of a function. -/
def function (g : Nested) : Reading Stmt := do
  let t ← eat .keyword "fn"
  if !(← check .identifier none) then expected .functionName
  let name ← advance
  let _ ← eatMark "("
  let names ← parameters name.lexeme
  let _ ← eatMark ")"
  let body ← insideFunction (block g)
  return .function name.lexeme names body t.position

/-- A return, which must stand in a function, with or without a value. -/
def result (g : Nested) : Reading Stmt := do
  let t ← current
  if (← get).functions = 0 then refuseAt .outsideFunction t
  let _ ← advance
  let value ←
    if ← sees .punctuation ";" then
      pure none
    else do
      let e ← expression g
      pure (some e)
  let _ ← eatMark ";"
  return .result value t.position

/-- An expression that is evaluated for its effects. -/
def expressionStatement (g : Nested) : Reading Stmt := do
  let t ← current
  let e ← expression g
  let _ ← eatMark ";"
  return .expression e t.position

/-- The statement that `keyword` begins; a keyword that begins none may begin an expression. -/
def keywordStatement (g : Nested) (keyword : String) : Reading Stmt :=
  match keyword with
  | "let" => declaration g
  | "fn" => function g
  | "print" => printStatement g
  | "if" => conditional g
  | "while" => loop g
  | "return" => result g
  | "break" => jump .leave
  | "continue" => jump .again
  | _ => expressionStatement g

/-- A statement. -/
def statement (g : Nested) : Reading Stmt := do
  let t ← current
  if t.kind = .keyword then keywordStatement g t.lexeme
  else if t.is .punctuation openBrace then block g
  else expressionStatement g

/-- One more statement of a program behind those in `done`, the last one first. -/
def oneMoreInProgram (g : Nested) (done : List Stmt) : Reading (Option (List Stmt)) := do
  if (← current).isEnd then
    return none
  else
    let s ← statement g
    return some (s :: done)

/-- The statements of a program, up to the end of input. -/
def program (g : Nested) : Reading Program := do
  let reversed ← repeatFrom (oneMoreInProgram g) []
  let _ ← take .endOfInput none
  return reversed.reverse

/-! ## Levels of nesting -/

/-- The parts of the grammar with room for so many further levels. -/
def nested : Nat → Nested
  | 0 => .none
  | depth + 1 =>
    let inner := nested depth
    { expression := expression inner
      operand := unary inner
      statement := statement inner
      conditional := conditional inner }

end Scripting.Grammar

namespace Scripting

/-- The program that a sequence of tokens spells, read with room for `depth` levels of nesting.
    Tokens that do not close with an end of input are no program, and nothing is due at a place
    outside them. -/
def Program.ofTokens (depth : Nat) (tokens : List Token) : Except Refusal Program :=
  match Cursor.ofTokens? tokens with
  | none => .error (.fault ⟨.violation (.expected (.token .endOfInput none)) none, .none⟩)
  | some c =>
    match Grammar.program (Grammar.nested depth) c with
    | .ok p _ => .ok p
    | .error e _ => .error e

/-- The tokens and the program of the text `source`, read with room for `depth` levels of
    nesting. -/
def Program.ofSource (depth : Nat) (source : String) : Except Refusal (List Token × Program) :=
  match tokenize source with
  | .error f => .error (.fault f)
  | .ok tokens => (Program.ofTokens depth tokens).map fun p => (tokens, p)

end Scripting
