import Scripting.Position
import Scripting.Value

set_option autoImplicit false

/-! # Tokens

The words of a program: what `kind` a word has, its text (`lexeme`), the `value` that a literal
stands for, and where it begins. -/

namespace Scripting

/-- The kinds of tokens. -/
inductive TokenKind where
  | number | string | identifier | keyword | operator | punctuation | endOfInput
  deriving DecidableEq, Repr

/-- The name of a kind in messages. -/
def TokenKind.name : TokenKind → String
  | .number => "number"
  | .string => "string"
  | .identifier => "identifier"
  | .keyword => "keyword"
  | .operator => "operator"
  | .punctuation => "punctuation"
  | .endOfInput => "eof"

/-- The name of a kind in the report of a token. -/
def TokenKind.label (k : TokenKind) : String :=
  k.name.toUpper

/-- A token. For a number or a string, `value` is what the literal stands for; for the end of input
    it is `nil`, and for the rest it is the text `lexeme`. -/
structure Token where
  kind : TokenKind
  lexeme : String
  value : Value
  position : Position
  deriving DecidableEq

namespace Token

/-- A token of the given `kind` and text, whose value is the text, but `nil` at the end of input. -/
def of (kind : TokenKind) (lexeme : String) (value : Value) (position : Position) : Token :=
  { kind, lexeme, position
    value := if value = .nil ∧ kind ≠ .endOfInput then .str lexeme else value }

/-- Whether `t` is of the given `kind` and, if a `lexeme` is given, has that text. -/
def matches? (t : Token) (kind : TokenKind) (lexeme : Option String) : Bool :=
  t.kind = kind && (match lexeme with
    | none => true
    | some s => t.lexeme = s)

/-- Whether `t` has the given `kind` and the text `lexeme`. -/
def is (t : Token) (kind : TokenKind) (lexeme : String) : Bool :=
  t.kind = kind && t.lexeme = lexeme

/-- Whether a token marks the end of input. -/
def isEnd (t : Token) : Bool :=
  t.kind = .endOfInput

/-- The token `t` as a message about what was found names it. -/
def describe (t : Token) : String :=
  if t.isEnd then "end of input" else s!"{t.kind.name} '{t.lexeme}'"

/-- The token `t` as a report of the tokens lists it. -/
def written (t : Token) : String :=
  let place := s!"line={t.position.line}, column={t.position.column}"
  s!"Token({t.kind.label}, {Text.quoted t.lexeme}, {place})"

end Token

end Scripting
