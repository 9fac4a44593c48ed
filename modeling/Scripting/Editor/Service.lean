import Scripting.Editor.Index
import Scripting.Editor.Library

set_option autoImplicit false

/-! # The editor service

What an editor asks about the documents it has open and about the files of its workspace
(`Service`). The library that talks to the editor is the parameter `lib`. The workspace is read at
the first question that needs it (`readWorkspace`), in the order in which the system lists its
files. A file that may not be opened is passed over; one that is no text breaks the reading off, and
it begins anew at the next such question. -/

namespace Scripting.Editor

/-- The state of a service on the library `lib`: the `documents` that the library keeps, the
    `index`, the files of the `workspace` by path if there is a workspace, in the order in which the
    system lists them, and whether they have been read. -/
structure Service (lib : Library := .standard) where
  documents : lib.Documents
  index : Index
  workspace : Option (List (String × File))
  indexed : Bool

/-- The end of the names of the files that hold programs. -/
def fileEnding : String := ".sprig"

namespace Service

/-- A service that knows no document yet, with the files of its `workspace`. -/
def start (workspace : Option (List (String × File))) (lib : Library := .standard) : Service lib :=
  { documents := lib.unopened, index := .empty, workspace, indexed := false }

variable {lib : Library}

/-- The files of the workspace, of which there are none without a workspace. -/
def files (s : Service lib) : List (String × File) :=
  s.workspace.getD []

/-! ## Reading -/

/-- Read `text` under the address `uri`, and diagnose it. -/
def update (nesting : Nat) (s : Service lib) (uri text : String) :
    Service lib × Except Trouble (List Diagnostic) :=
  match s.index.update? nesting uri text with
  | some (index, diagnostics) => ({ s with index }, .ok diagnostics)
  | none => (s, .error .tooDeep)

/-- Take in the `text` of the document `uri`, which is opened in the editor, and diagnose it. -/
def openDocument (nesting : Nat) (s : Service lib) (uri text : String) :
    Service lib × Except Trouble (List Diagnostic) :=
  update nesting { s with documents := lib.opening s.documents uri text } uri text

/-- Take in the text that the library has of the document `uri` behind a change, and diagnose it. -/
def changeDocument (nesting : Nat) (s : Service lib) (uri text : String) :
    Service lib × Except Trouble (List Diagnostic) :=
  match lib.change s.documents uri text with
  | .error t => (s, .error t)
  | .ok documents =>
    let s := { s with documents }
    match lib.text documents s.files uri with
    | .error t => (s, .error t)
    | .ok text => s.update nesting uri text

/-- Those of the `files` that hold programs, in the order in which they are listed. -/
def programFiles (files : List (String × File)) : List (String × File) :=
  files.filter fun f => f.1.endsWith fileEnding

/-- Read files one after the other, up to one that breaks the reading off. -/
def readFiles (nesting : Nat) (s : Service lib) :
    List (String × File) → Service lib × Except Trouble Unit
  | [] => (s, .ok ())
  | (path, file) :: rest =>
    match file.read with
    | .error _ => readFiles nesting s rest
    | .ok content =>
      match textOfBytes content with
      | .error f => (s, .error (.undecodable f))
      | .ok text =>
        match update nesting s (lib.fileUri path) text with
        | (s, .ok _) => readFiles nesting s rest
        | (s, .error t) => (s, .error t)

/-- Read the workspace if it has not been read. -/
def readWorkspace (nesting : Nat) (s : Service lib) : Service lib × Except Trouble Unit :=
  if s.indexed then (s, .ok ())
  else
    match readFiles nesting s (programFiles s.files) with
    | (s, .ok ()) => ({ s with indexed := true }, .ok ())
    | (s, .error t) => (s, .error t)

/-! ## Questions -/

/-- The symbol that `name` is taken to mean. The workspace is read first. -/
def lookup (nesting : Nat) (s : Service lib) (name : String) :
    Service lib × Except Trouble (Option Symbol) :=
  match s.readWorkspace nesting with
  | (s, .ok ()) => (s, .ok (s.index.find? name))
  | (s, .error t) => (s, .error t)

/-- The symbol under the cursor. Where the library finds no word, nothing is looked up. -/
def symbolAt (nesting : Nat) (s : Service lib) (uri : String) (line offset : Nat) :
    Service lib × Except Trouble (Option Symbol) :=
  match lib.text s.documents s.files uri with
  | .error t => (s, .error t)
  | .ok text =>
    let word := lib.wordAt text line offset
    if word = "" then (s, .ok none) else s.lookup nesting word

end Service

end Scripting.Editor
