import Scripting.Bindings
import Scripting.File
import Scripting.Text.Percent
import Scripting.Text.Word

set_option autoImplicit false

/-! # The library of an editor service

An editor service is built on a library that talks to the editor: it keeps the texts of the
documents that are open, finds the word at a place, and names files by addresses. `Library` is what
the service calls of it. `Library.standard` is one that names files from the root of the workspace
and finds words by `Text.wordAt`. -/

namespace Scripting.Editor

/-- Why a question has no answer. -/
inductive Trouble where
  | tooDeep
  | undecodable (f : Text.Utf8Fault)
  /-- A document is changed that was never opened. -/
  | notOpen (uri : String)
  /-- A document is neither open nor to be had from the file that its address names. -/
  | unreadable (why : Unreadable) (path : String)
  deriving DecidableEq

/-- What an editor service calls of its library. -/
structure Library where
  /-- The address of the file at a path of the workspace. -/
  fileUri : String → String
  /-- What is kept of the documents that are open in the editor. -/
  Documents : Type
  /-- No document is open. -/
  unopened : Documents
  /-- The text that a document has in the editor, if it is open. -/
  opened? : Documents → String → Option String
  /-- Keep a document that is opened with a text. -/
  opening : Documents → String → String → Documents
  /-- Keep the text that a document has behind a change. -/
  change : Documents → String → String → Except Trouble Documents
  /-- The text of a document, which may be that of a file of the workspace. -/
  text : Documents → List (String × File) → String → Except Trouble String
  /-- The word at a line and an offset of a text, empty where there is none. -/
  wordAt : String → Nat → Nat → String

namespace Library

/-- The beginning of the addresses of files. -/
def fileScheme : List Char := "file://".toList

/-- The path of the file that an address names. -/
def addressPath (uri : String) : String :=
  let address := uri.toList
  let path := if fileScheme.isPrefixOf address then address.drop fileScheme.length else address
  Text.percentDecoded (String.ofList path)

/-- The address of a path of the workspace, from its root. -/
def rootUri (path : String) : String :=
  "root:/" ++ Text.percentEncoded path

/-- The file that the address `uri` names. There are no `files` outside the workspace. -/
def fileAt (files : List (String × File)) (uri : String) : File :=
  match files.find? fun f => rootUri f.1 = uri with
  | some (_, file) => file
  | none => .missing

/-- The text of a document: what is open in the editor (`documents`), or else what is in the
    workspace (`files`). -/
def documentText (documents : Bindings String) (files : List (String × File)) (uri : String) :
    Except Trouble String :=
  match documents.find? uri with
  | some text => .ok text
  | none =>
    match (fileAt files uri).read with
    | .ok content => (textOfBytes content).mapError .undecodable
    | .error why => .error (.unreadable why (addressPath uri))

/-- The library that keeps texts by address, and refuses to change what is not open. -/
def standard : Library where
  fileUri := rootUri
  Documents := Bindings String
  unopened := []
  opened? := Bindings.find?
  opening documents uri text := documents.put uri text
  change documents uri text :=
    match documents.find? uri with
    | some _ => .ok (documents.put uri text)
    | none => .error (.notOpen uri)
  text := documentText
  wordAt := Text.wordAt

end Library

end Scripting.Editor
