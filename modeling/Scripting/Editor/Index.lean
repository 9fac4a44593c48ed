import Scripting.Bindings
import Scripting.Editor.Symbol

set_option autoImplicit false

/-! # The symbol index

The symbols of the documents that are known, by document (`documents`), in the order in which the
documents were first read without a fault. A document that is no program keeps the symbols of its
last version that was one (`update?`). Beside this stands a table of the same symbols by name
(`byName`), which is built anew whenever a document is replaced. -/

namespace Scripting.Editor

/-- Symbols by document (`documents`), and the same symbols by name (`byName`). -/
structure Index where
  documents : Bindings (List Symbol)
  byName : Bindings (List Symbol)

/-- The `table` of symbols by name with one more symbol `s`, behind those with the same name. -/
def filed (table : Bindings (List Symbol)) (s : Symbol) : Bindings (List Symbol) :=
  table.put s.name ((table.find? s.name).getD [] ++ [s])

namespace Index

/-- An index without documents. -/
def empty : Index := ⟨[], []⟩

/-- All symbols, by document and then in the order of the document. -/
def all (i : Index) : List Symbol :=
  i.documents.flatMap (·.2)

/-- The index with its table by name built anew. -/
def rebuilt (i : Index) : Index :=
  { i with byName := i.all.foldl filed [] }

/-- The symbols with the name `name`. -/
def named (i : Index) (name : String) : List Symbol :=
  (i.byName.find? name).getD []

/-- The symbol that `name` is taken to mean: the first with that name. -/
def find? (i : Index) (name : String) : Option Symbol :=
  (i.named name).head?

/-- The symbols of the document `uri`. -/
def ofDocument (i : Index) (uri : String) : List Symbol :=
  (i.documents.find? uri).getD []

/-- The names in the index, each once, in alphabetical order. -/
def names (i : Index) : List String :=
  i.byName.sorted.map Prod.fst

/-- Replace the symbols of the document `uri` by `s`. -/
def put (i : Index) (uri : String) (s : List Symbol) : Index :=
  rebuilt { i with documents := i.documents.put uri s }

@[simp] theorem documents_put (i : Index) (uri : String) (s : List Symbol) :
    (i.put uri s).documents = i.documents.put uri s := rfl

/-- `put` replaces the symbols of `uri` and leaves those of the `other` documents. -/
@[simp] theorem ofDocument_put (i : Index) (uri other : String) (s : List Symbol) :
    (i.put uri s).ofDocument other = if other = uri then s else i.ofDocument other := by
  simp only [ofDocument, documents_put, Bindings.find?_put]
  split <;> simp

/-- Read the document `uri` with the text `text`. A program replaces the symbols of the document; a
    fault is diagnosed and leaves the index as it was. Nothing comes of a document that is nested
    too deeply. -/
def update? (nesting : Nat) (i : Index) (uri text : String) : Option (Index × List Diagnostic) :=
  match Program.ofSource nesting text with
  | .ok (_, p) => some (i.put uri (symbols uri p), [])
  | .error (.fault f) => some (i, [.ofFault f])
  | .error .tooDeep => none

end Index

end Scripting.Editor
