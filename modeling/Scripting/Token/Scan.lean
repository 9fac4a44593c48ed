import Scripting.Fault
import Scripting.Token.Item

set_option autoImplicit false

/-! # From a source text to its tokens

The items of a source text are taken one by one (`scanFrom`); each but the separating ones gives a
token, which carries the position where the item begins. The end of the text gives a last token,
`Token.endAt`. Where no item can be cut off, the scan ends with the fault `strayCharacter` at that
position, and the tokens before it stand. -/

namespace Scripting

/-! ## Tokens from items -/

/-- The words that are no identifiers. -/
def keywords : List String :=
  ["let", "fn", "return", "if", "else", "while", "break", "continue", "print", "true", "false",
   "nil", "and", "or"]

/-- What a letter behind a backslash stands for. -/
def escapeMeaning? : Char → Option Char
  | 'n' => some '\n'
  | 't' => some '\t'
  | 'r' => some '\r'
  | '0' => some '\x00'
  | '"' => some '"'
  | '\\' => some '\\'
  | _ => none

/-- The text that the inside of a string stands for. A backslash before a character without a
    meaning of its own is kept together with it. -/
def unescape : List Char → List Char
  | '\\' :: c :: rest =>
    match escapeMeaning? c with
    | some meaning => meaning :: unescape rest
    | none => '\\' :: c :: unescape rest
  | c :: rest => c :: unescape rest
  | [] => []

/-- The text that the string `text` stands for, its quotes taken off and `unescape` applied. -/
def stringValue (text : List Char) : String :=
  String.ofList (unescape (text.drop 1).dropLast)

/-- The token that the item of `cut` gives at the position `p`; layout, line feeds and comments give
    none. -/
def Cut.token? (cut : Cut) (p : Position) : Option Token :=
  let lexeme := String.ofList cut.text
  match cut.sort with
  | .layout | .lineFeed | .comment => none
  | .number => some ⟨.number, lexeme, .num (Number.ofLiteral cut.text), p⟩
  | .string => some ⟨.string, lexeme, .str (stringValue cut.text), p⟩
  | .word =>
    let kind := if keywords.contains lexeme then .keyword else .identifier
    some ⟨kind, lexeme, .str lexeme, p⟩
  | .operator => some ⟨.operator, lexeme, .str lexeme, p⟩
  | .punctuation => some ⟨.punctuation, lexeme, .str lexeme, p⟩

/-- The token that stands at the end of every source text. -/
def Token.endAt (p : Position) : Token :=
  ⟨.endOfInput, "", .nil, p⟩

/-! ## The scan -/

/-- The `tokens` of a source text, up to a `fault` if there is one. Without a fault the last of them
    marks the end of the text. -/
structure Scan where
  tokens : List Token
  fault : Option Fault
  deriving DecidableEq

/-- The fault of the character `c` at `p`, at which no item begins. -/
def strayCharacter (c : Char) (p : Position) : Fault :=
  if c = '"' then .located .unterminatedString p
  else .located (.invalidCharacter c.toString) p

/-- Scan the text that begins at `p`. `done` holds the tokens before it, last first. -/
def scanFrom (done : List Token) (p : Position) (s : List Char) : Scan :=
  match _cut : cutItem? s with
  | some cut => scanFrom ((cut.token? p).toList ++ done) (p.after cut.text) cut.rest
  | none =>
    match s with
    | [] => ⟨(Token.endAt p :: done).reverse, none⟩
    | c :: _ => ⟨done.reverse, some (strayCharacter c p)⟩
termination_by s.length
decreasing_by exact cutItem?_length _cut

/-- The tokens of the text `source`, from `Position.start` on. -/
def scan (source : String) : Scan :=
  scanFrom [] Position.start source.toList

/-- The tokens of the text `source`, or the fault that `scan` meets. -/
def tokenize (source : String) : Except Fault (List Token) :=
  let s := scan source
  match s.fault with
  | some f => .error f
  | none => .ok s.tokens

/-- The tokens `done`, found before the text `s`, only stand before those found in it. -/
theorem scanFrom_done (done : List Token) (p : Position) (s : List Char) :
    scanFrom done p s =
      ⟨done.reverse ++ (scanFrom [] p s).tokens, (scanFrom [] p s).fault⟩ := by
  induction hn : s.length using Nat.strongRecOn generalizing s done p with
  | ind n ih =>
    rw [scanFrom, scanFrom]
    split
    · rename_i cut hcut
      have hlt := cutItem?_length hcut
      -- both scans cut off the same item, and what is left is shorter
      rw [ih _ (hn ▸ hlt) _ _ _ rfl, ih _ (hn ▸ hlt) ((cut.token? p).toList ++ []) _ _ rfl]
      cases cut.token? p <;> simp
    · split <;> simp

end Scripting
