import Scripting.Operator
import Scripting.Text.Lines
import Scripting.Token

set_option autoImplicit false

/-! # Faults and reports

What can be wrong with a program, as causes and not as texts (`Cause`): a character outside the
alphabet, a token where another was due, an operation on the wrong types. A `Fault` is a cause with
the place it points at. A `Report` is a fault together with the name of the file, and can be written
on one line (`summary`) or as an excerpt of the source with a caret under the column (`excerpt`). -/

namespace Scripting

/-! ## Causes -/

/-- The classes of faults. The general ones are there for messages that name no closer cause. -/
inductive FaultClass where
  | general
  | lexical | invalidCharacter | unterminatedString
  | grammatical
  | runtime | undefinedVariable | typeMismatch | divisionByZero | arity | notCallable
  deriving DecidableEq, Repr

/-- The stage at which a class of faults is found, as a report names it. -/
def FaultClass.stage : FaultClass → String
  | .general => "Error"
  | .lexical | .invalidCharacter | .unterminatedString => "LexError"
  | .grammatical => "ParseError"
  | .runtime | .undefinedVariable | .typeMismatch | .divisionByZero | .arity | .notCallable =>
    "RuntimeError"

/-- What the grammar calls for at some point of a program. -/
inductive Expectation where
  | expression
  | variableName
  | functionName
  | token (kind : TokenKind) (lexeme : Option String)
  deriving DecidableEq, Repr

/-- What is due, in words. A token without a text is named by its kind alone. -/
def Expectation.text : Expectation → String
  | .expression => "expression"
  | .variableName => "identifier after 'let'"
  | .functionName => "function name after 'fn'"
  | .token kind none => kind.name
  | .token kind (some lexeme) => if lexeme = "" then kind.name else s!"{kind.name} '{lexeme}'"

/-- A statement that leaves the loop around it, or that goes on to its next round. -/
inductive Jump where
  | leave | again
  deriving DecidableEq, Repr

/-- The keyword of a jump. -/
def Jump.keyword : Jump → String
  | .leave => "break"
  | .again => "continue"

/-- How a sequence of tokens can depart from the grammar. -/
inductive Violation where
  /-- Something else was due. -/
  | expected (what : Expectation)
  /-- The left side of an assignment is not a variable. -/
  | assignmentTarget
  /-- A jump stands in no loop of the function around it. -/
  | outsideLoop (jump : Jump)
  /-- A return stands in no function. -/
  | outsideFunction
  /-- Two parameters of a function have one name. -/
  | duplicateParameter (parameter function : String)
  /-- A departure in words of its own. -/
  | worded (message : String)
  deriving DecidableEq, Repr

/-- Operands that an operator cannot be applied to. -/
inductive Mismatch where
  /-- Negation of what is no number. -/
  | negation (operand : ValueType)
  /-- An operator for numbers, or for two strings, with other operands. -/
  | operands (op : Operator) (left right : ValueType)
  /-- A comparison of values of different types. -/
  | comparison (op : Operator) (left right : ValueType)
  deriving DecidableEq, Repr

/-- Why a program is refused or stops. -/
inductive Cause where
  | invalidCharacter (text : String)
  | unterminatedString
  | violation (v : Violation) (found : Option Token)
  | undefinedVariable (name : String)
  | typeMismatch (m : Mismatch)
  | divisionByZero
  | arity (function : String) (expected got : Int)
  | notCallable (type : ValueType)
  | worded (c : FaultClass) (message : String)
  deriving DecidableEq

/-- The class a cause belongs to. -/
def Cause.faultClass : Cause → FaultClass
  | .invalidCharacter _ => .invalidCharacter
  | .unterminatedString => .unterminatedString
  | .violation _ _ => .grammatical
  | .undefinedVariable _ => .undefinedVariable
  | .typeMismatch _ => .typeMismatch
  | .divisionByZero => .divisionByZero
  | .arity _ _ _ => .arity
  | .notCallable _ => .notCallable
  | .worded c _ => c

/-! ## Wording -/

/-- The violation `v` in words; what was due is set against the token `found` instead. -/
def Violation.message (v : Violation) (found : Option Token) : String :=
  match v with
  | .expected what =>
    let instead := match found with
      | some t => s!", but got {t.describe}"
      | none => ""
    s!"Expected {what.text}{instead}"
  | .assignmentTarget => "Invalid assignment target"
  | .outsideLoop jump => s!"'{jump.keyword}' outside loop"
  | .outsideFunction => "'return' outside function"
  | .duplicateParameter p f => s!"Duplicate parameter '{p}' in function '{f}'"
  | .worded message => message

/-- A mismatch in words. -/
def Mismatch.message : Mismatch → String
  | .negation t => s!"Unary minus (-) requires a numeric operand, got {t.name}"
  | .operands op l r => s!"Operator '{op.spelling}' expects numbers, got {l.name} and {r.name}"
  | .comparison op l r => s!"Cannot compare {l.name} and {r.name} with '{op.spelling}'"

/-- A cause in words. -/
def Cause.message : Cause → String
  | .invalidCharacter text => s!"Invalid character '{text}'"
  | .unterminatedString => "Unterminated string"
  | .violation v found => v.message found
  | .undefinedVariable name => s!"Undefined variable '{name}'"
  | .typeMismatch m => m.message
  | .divisionByZero => "Division by zero"
  | .arity f expected got => s!"Function '{f}' expects {expected} argument(s) but got {got}"
  | .notCallable t => s!"Cannot call a value of type {t.name}"
  | .worded _ message => message

/-! ## Faults -/

/-- The place that a fault points at, as far as its `line` and `column` are known. -/
structure Place where
  line : Option Int
  column : Option Int
  deriving DecidableEq, Repr

/-- A position as a place. -/
def Position.place (p : Position) : Place :=
  ⟨some p.line, some p.column⟩

/-- No place. -/
def Place.none : Place := ⟨Option.none, Option.none⟩

/-- A cause and the place it points at. -/
structure Fault where
  cause : Cause
  place : Place
  deriving DecidableEq

namespace Fault

/-- The fault `cause` at the position `p`. -/
def located (cause : Cause) (p : Position) : Fault :=
  ⟨cause, p.place⟩

/-- The violation `v` of the grammar at the token `t`. -/
def atToken (v : Violation) (t : Token) : Fault :=
  ⟨.violation v (some t), t.position.place⟩

/-- Whether `f` is that the program ends too early: a violation found at the end of input. -/
def isAtEnd (f : Fault) : Bool :=
  match f.cause with
  | .violation _ (some t) => t.isEnd
  | _ => false

end Fault

/-! ## Reports -/

/-- A fault in a file, if the source has a name. -/
structure Report where
  fault : Fault
  file : Option String
  deriving DecidableEq

namespace Report

/-- The message with the place and the file behind it, as far as they are known. -/
def summary (r : Report) : String :=
  let place := match r.fault.place with
    | ⟨none, _⟩ => ""
    | ⟨some l, none⟩ => s!" on line {l}"
    | ⟨some l, some c⟩ => s!" on line {l} char {c}"
  let file := match r.file with
    | none => ""
    | some name => s!" in {name}"
  r.fault.cause.message ++ place ++ file

/-- The line of `source` with the number `line`, counted from one; empty if there is none. -/
def sourceLine (source : String) (line : Int) : String :=
  if 0 < line then
    String.ofList ((Text.line? (line - 1).toNat source.toList).getD [])
  else ""

/-- The message of `r` with an excerpt: the line of `source` it points at and a caret under the
    column. A column that is missing or zero is taken as the first. Without a line there is no
    excerpt. -/
def excerpt (r : Report) (source : String) : String :=
  let header := s!"{r.fault.cause.faultClass.stage}: {r.fault.cause.message}"
  match r.fault.place.line with
  | none => header
  | some l =>
    let column := match r.fault.place.column with
      | none => 1
      | some c => if c = 0 then 1 else c
    let file := match r.file with
      | none => ""
      | some name => s!" in {name}"
    let caret := String.ofList (List.replicate (column - 1).toNat ' ' ++ ['^'])
    s!"{header}, on line {l} char {column}{file}:\n{sourceLine source l}\n{caret}"

end Report

end Scripting
