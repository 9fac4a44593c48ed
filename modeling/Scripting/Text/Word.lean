set_option autoImplicit false

/-! # The word under a cursor

An editor gives a place in a document as a line and a character offset, both counted from zero, the
offset in `units` of UTF-16: a character beyond the basic plane takes two. The word at a place
(`wordAt`) is the longest run of letters, digits and underscores that touches it. -/

namespace Scripting.Text

/-- Whether a character ends a line of a document: a line feed, a carriage return, or one of the
    other separators that Unicode text breaks at. -/
def endsLine (c : Char) : Bool :=
  ['\n', '\r', '\x0b', '\x0c', '\x1c', '\x1d', '\x1e', '\u0085', '\u2028', '\u2029'].contains c

/-- The lines of a document, each with what ends it; a carriage return and a line feed end a line
    together. What `endsLine` at the end of the text begins no further line. `line` holds the
    characters of the line being read, last first. -/
def documentLinesFrom (line : List Char) : List Char → List (List Char)
  | [] => if line.isEmpty then [] else [line.reverse]
  | '\r' :: '\n' :: rest => ('\n' :: '\r' :: line).reverse :: documentLinesFrom [] rest
  | c :: rest =>
    if endsLine c then (c :: line).reverse :: documentLinesFrom [] rest
    else documentLinesFrom (c :: line) rest

/-- The lines of a document, each with what ends it. -/
def documentLines (s : List Char) : List (List Char) :=
  documentLinesFrom [] s

/-- The `line` with the two characters that may end it taken as one line feed. -/
def withLineFeed (line : List Char) : List Char :=
  match line.reverse with
  | '\n' :: '\r' :: rest => ('\n' :: rest).reverse
  | _ => line

/-- How many units of UTF-16 a character takes. -/
def units (c : Char) : Nat :=
  if c.toNat < 0x10000 then 1 else 2

/-- How many units of UTF-16 a text takes. -/
def size16 (s : List Char) : Nat :=
  s.foldl (fun n c => n + units c) 0

/-- How many characters stand before an offset in `units`. An offset inside a character counts as
    one behind it. -/
def charactersBefore : Nat → List Char → Nat
  | 0, _ => 0
  | _ + 1, [] => 0
  | n + 1, c :: rest => 1 + charactersBefore (n + 1 - units c) rest

/-- How many characters of `line` stand before the cursor. An `offset` beyond the line and its line
    feed is taken back to just before its last unit. -/
def cursorIndex (line : List Char) (offset : Nat) : Nat :=
  let text := withLineFeed line
  let size := size16 text
  charactersBefore (if size < offset then size - 1 else offset) text

/-- Whether a character belongs to a word. -/
def isWordPart (c : Char) : Bool :=
  c.isAlphanum || c = '_'

/-- The longest run of word characters at the end of `s`, a line feed behind it set aside. -/
def wordEnding (s : List Char) : List Char :=
  let reversed := match s.reverse with
    | '\n' :: rest => rest
    | other => other
  (reversed.takeWhile isWordPart).reverse

/-- The word at a place of the `document`, empty where there is none. -/
def wordAt (document : String) (line offset : Nat) : String :=
  match (documentLines document.toList)[line]? with
  | none => ""
  | some text =>
    let index := cursorIndex text offset
    String.ofList (wordEnding (text.take index) ++ (text.drop index).takeWhile isWordPart)

end Scripting.Text
