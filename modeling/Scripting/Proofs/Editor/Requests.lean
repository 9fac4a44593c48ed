import Mathlib
import Scripting.Editor.Service
import Scripting.Proofs.Editor.History
import Scripting.Proofs.Grammar.Progress
import Scripting.Proofs.Text.Files

set_option autoImplicit false

/-! # A service through its requests

Every request hands texts to the index, or none: a document its new text, and the first look-up
those of the files of the workspace. `Service.texts` tells which. Nothing else reaches the index
(`index_serve`), so that behind any requests it holds what the `History` of these texts calls for,
and look-ups answer from it (`consistent_after`). All this holds on any library. What is expected of
one that keeps to its purpose is `Library.Lawful`. -/

namespace Scripting.Editor

/-! ## Libraries -/

/-- Whether the library `lib` names files one by one, and keeps the texts that documents have in the
    editor. -/
structure Library.Lawful (lib : Library) : Prop where
  /-- Different files have different addresses. -/
  fileUri_injective : Function.Injective lib.fileUri
  /-- At first no document is open. -/
  opened?_unopened : ∀ uri, lib.opened? lib.unopened uri = none
  /-- A document that is opened has the text with which it is opened, and the others stay. -/
  opened?_opening : ∀ documents uri text other,
    lib.opened? (lib.opening documents uri text) other =
      if other = uri then some text else lib.opened? documents other
  /-- A document that is open can be changed. It has the new text then, and the others stay. -/
  change_of_opened : ∀ documents uri text, (lib.opened? documents uri).isSome →
    ∃ changed, lib.change documents uri text = .ok changed ∧
      ∀ other, lib.opened? changed other =
        if other = uri then some text else lib.opened? documents other
  /-- A document that is not open is not changed. -/
  change_of_unopened : ∀ documents uri text, lib.opened? documents uri = none →
    ∃ t, lib.change documents uri text = .error t
  /-- The text of an open document is the one in the editor, whatever the files are. -/
  text_of_opened : ∀ documents files uri text, lib.opened? documents uri = some text →
    lib.text documents files uri = .ok text

theorem Library.standard_lawful : Library.standard.Lawful where
  fileUri_injective := by
    intro path path' h
    exact Text.percentEncoded_injective (String.append_right_inj _ |>.1 h)
  opened?_unopened _ := rfl
  opened?_opening documents uri text other := Bindings.find?_put documents uri other text
  change_of_opened := by
    intro documents uri text hopen
    obtain ⟨before, hbefore⟩ := Option.isSome_iff_exists.1 hopen
    have hfound : Bindings.find? documents uri = some before := hbefore
    refine ⟨Bindings.put uri text documents, by simp only [standard, hfound], fun other => ?_⟩
    exact Bindings.find?_put documents uri other text
  change_of_unopened := by
    intro documents uri text hclosed
    have hnone : Bindings.find? documents uri = none := hclosed
    exact ⟨.notOpen uri, by simp only [standard, hnone]⟩
  text_of_opened := by
    intro documents files uri text hopen
    have hfound : Bindings.find? documents uri = some text := hopen
    simp only [standard, documentText, hfound]

/-! ## Requests -/

/-- What is asked of a service: to take in a text, directly or as that of a document that is opened
    or changed, or to look up a name or what stands at a place. -/
inductive Request where
  | update (uri text : String)
  | opening (uri text : String)
  | change (uri text : String)
  | lookup (name : String)
  | symbolAt (uri : String) (line offset : Nat)

namespace Service

variable {lib : Library}

/-! ## What requests hand to the index -/

/-- The texts that are read of files, up to one that breaks the reading off. -/
def textsRead (lib : Library) (nesting : Nat) : List (String × File) → History
  | [] => []
  | (path, file) :: rest =>
    match file.read with
    | .error _ => textsRead lib nesting rest
    | .ok content =>
      match textOfBytes content with
      | .error _ => []
      | .ok text =>
        match Program.ofSource nesting text with
        | .error .tooDeep => [(lib.fileUri path, text)]
        | _ => (lib.fileUri path, text) :: textsRead lib nesting rest

/-- The texts of the workspace that a look-up of the service `s` reads first. -/
def textsToRead (nesting : Nat) (s : Service lib) : History :=
  if s.indexed then [] else textsRead lib nesting (programFiles s.files)

/-- The texts that a request hands to the index of the service `s`. Those of a `change` and of the
    word under a cursor are what the library makes of its documents. -/
def texts (nesting : Nat) (s : Service lib) : Request → History
  | .update uri text | .opening uri text => [(uri, text)]
  | .change uri text =>
    match lib.change s.documents uri text with
    | .error _ => []
    | .ok documents =>
      match lib.text documents s.files uri with
      | .error _ => []
      | .ok text => [(uri, text)]
  | .lookup _ => s.textsToRead nesting
  | .symbolAt uri line offset =>
    match lib.text s.documents s.files uri with
    | .error _ => []
    | .ok text => if lib.wordAt text line offset = "" then [] else s.textsToRead nesting

/-- The service `s` behind a request. -/
def serve (nesting : Nat) (s : Service lib) : Request → Service lib
  | .update uri text => (s.update nesting uri text).1
  | .opening uri text => (s.openDocument nesting uri text).1
  | .change uri text => (s.changeDocument nesting uri text).1
  | .lookup name => (s.lookup nesting name).1
  | .symbolAt uri line offset => (s.symbolAt nesting uri line offset).1

/-- The service `s` behind `requests` one after the other. -/
def after (nesting : Nat) (s : Service lib) (requests : List Request) : Service lib :=
  requests.foldl (serve nesting) s

/-- The texts that requests hand to the index one after the other. -/
def history (nesting : Nat) (s : Service lib) : List Request → History
  | [] => []
  | r :: rest => s.texts nesting r ++ history nesting (s.serve nesting r) rest

/-! ## What comes of a text -/

section Updates

variable {nesting : Nat} {text : String} (s : Service lib) (uri : String)

theorem update_of_ok {tokens : List Token} {p : Program}
    (h : Program.ofSource nesting text = .ok (tokens, p)) :
    s.update nesting uri text = ({ s with index := s.index.put uri (symbols uri p) }, .ok []) := by
  simp [update, Index.update?, h]

/-- The fault `f` is diagnosed, and nothing else comes of the text. -/
theorem update_of_fault {f : Fault} (h : Program.ofSource nesting text = .error (.fault f)) :
    s.update nesting uri text = (s, .ok [.ofFault f]) := by
  simp [update, Index.update?, h]

theorem update_of_tooDeep (h : Program.ofSource nesting text = .error .tooDeep) :
    s.update nesting uri text = (s, .error .tooDeep) := by
  simp [update, Index.update?, h]

theorem index_update (text : String) :
    (s.update nesting uri text).1.index = s.index.taken nesting (uri, text) := by
  unfold update Index.taken
  cases s.index.update? nesting uri text <;> rfl

/-- There is nothing for `update` to say about a program, and there is about everything else. -/
theorem update_eq_nil_iff :
    (s.update nesting uri text).2 = .ok [] ↔
      ∃ tokens p, Program.ofSource nesting text = .ok (tokens, p) := by
  constructor
  · intro h
    cases hread : Program.ofSource nesting text with
    | ok read => exact ⟨read.1, read.2, rfl⟩
    | error e =>
      cases e with
      | fault f => simp [update_of_fault s uri hread] at h
      | tooDeep => simp [update_of_tooDeep s uri hread] at h
  · rintro ⟨tokens, p, hread⟩
    rw [update_of_ok s uri hread]

end Updates

/-! ## The index behind requests -/

section Indexes

variable {nesting : Nat} (s : Service lib)

section Files

variable {s} {s' : Service lib} {path text : String} {file : File} {content : ByteArray}
  (hfile : file.read = .ok content) (htext : textOfBytes content = .ok text)
  (rest : List (String × File))

include hfile htext

/-- Behind a file whose text is taken in by `update` the `rest` is read. -/
theorem readFiles_of_ok {diagnostics : List Diagnostic}
    (hupdate : s.update nesting (lib.fileUri path) text = (s', .ok diagnostics)) :
    s.readFiles nesting ((path, file) :: rest) = s'.readFiles nesting rest := by
  simp only [readFiles, hfile, htext, hupdate]

/-- A file with whose text there is the trouble `t` breaks the reading off. -/
theorem readFiles_of_error {t : Trouble}
    (hupdate : s.update nesting (lib.fileUri path) text = (s', .error t)) :
    s.readFiles nesting ((path, file) :: rest) = (s', .error t) := by
  simp only [readFiles, hfile, htext, hupdate]

end Files

theorem index_readFiles (files : List (String × File)) :
    (s.readFiles nesting files).1.index =
      (textsRead lib nesting files).foldl (Index.taken nesting) s.index := by
  induction files generalizing s with
  | nil => rfl
  | cons f rest ih =>
    obtain ⟨path, file⟩ := f
    cases hfile : file.read with
    | error why => simpa only [readFiles, textsRead, hfile] using ih s
    | ok content =>
      cases htext : textOfBytes content with
      | error f => simp only [readFiles, textsRead, hfile, htext, List.foldl_nil]
      | ok text =>
        have hindex : (s.update nesting (lib.fileUri path) text).1.index =
            s.index.taken nesting (lib.fileUri path, text) := s.index_update (lib.fileUri path) text
        simp only [textsRead, hfile, htext]
        rcases hread : Program.ofSource nesting text with (f | _) | read
        · -- a text with a fault is passed over
          have hupdate := s.update_of_fault (lib.fileUri path) hread
          rw [hupdate] at hindex
          rw [readFiles_of_ok hfile htext rest hupdate, List.foldl_cons, ← hindex]
          exact ih s
        · have hupdate := s.update_of_tooDeep (lib.fileUri path) hread
          rw [hupdate] at hindex
          rw [readFiles_of_error hfile htext rest hupdate, List.foldl_cons, ← hindex]
          rfl
        · have hupdate := s.update_of_ok (lib.fileUri path) hread
          rw [hupdate] at hindex
          rw [readFiles_of_ok hfile htext rest hupdate, List.foldl_cons, ← hindex]
          exact ih _

theorem index_readWorkspace :
    (s.readWorkspace nesting).1.index =
      (s.textsToRead nesting).foldl (Index.taken nesting) s.index := by
  unfold readWorkspace textsToRead
  split
  · rfl
  · rw [← s.index_readFiles]
    split <;> simp_all

theorem index_lookup (name : String) :
    (s.lookup nesting name).1.index =
      (s.textsToRead nesting).foldl (Index.taken nesting) s.index := by
  rw [← s.index_readWorkspace]
  unfold lookup
  split <;> simp_all

/-- A request changes the `index` by the `texts` that it hands to it, and by nothing else. -/
theorem index_serve (r : Request) :
    (s.serve nesting r).index = (s.texts nesting r).foldl (Index.taken nesting) s.index := by
  cases r with
  | update uri text => exact s.index_update uri text
  | opening uri text =>
    exact index_update { s with documents := lib.opening s.documents uri text } uri text
  | change uri text =>
    simp only [serve, changeDocument, texts]
    cases lib.change s.documents uri text with
    | error t => rfl
    | ok documents =>
      dsimp only
      have hfiles : files { s with documents } = s.files := rfl
      rw [hfiles]
      cases lib.text documents s.files uri with
      | error t => rfl
      | ok document => exact index_update { s with documents } uri document
  | lookup name => exact s.index_lookup name
  | symbolAt uri line offset =>
    simp only [serve, symbolAt, texts]
    cases lib.text s.documents s.files uri with
    | error t => rfl
    | ok text =>
      simp only
      split
      · rfl
      · exact s.index_lookup _

theorem index_after (requests : List Request) :
    (s.after nesting requests).index =
      (s.history nesting requests).foldl (Index.taken nesting) s.index := by
  induction requests generalizing s with
  | nil => rfl
  | cons r rest ih =>
    rw [history, List.foldl_append, ← s.index_serve r]
    exact ih (s.serve nesting r)

theorem after_concat (requests : List Request) (r : Request) :
    s.after nesting (requests ++ [r]) = (s.after nesting requests).serve nesting r := by
  rw [after, List.foldl_append]
  rfl

theorem history_concat (requests : List Request) (r : Request) :
    s.history nesting (requests ++ [r]) =
      s.history nesting requests ++ (s.after nesting requests).texts nesting r := by
  induction requests generalizing s with
  | nil => simp [history, after]
  | cons r' rest ih =>
    rw [List.cons_append, history, history, ih, List.append_assoc]
    rfl

end Indexes

/-! ## Consistency -/

/-- Whether the service `s` answers as the history `h` of texts calls for that its index has taken
    in, and goes on to do so whatever text it takes in next. -/
structure Consistent (nesting : Nat) (h : History) (s : Service lib) : Prop where
  /-- A document has the symbols of the last program that it was; if it never was one, none. -/
  documents : ∀ uri, s.index.documents.find? uri = (h.latest? nesting uri).map (symbols uri)
  /-- These are the functions and variables that its statements declare, and nothing else. -/
  declared : ∀ uri symbol, symbol ∈ s.index.ofDocument uri ↔
    ∃ p, h.latest? nesting uri = some p ∧ ∃ st ∈ p, symbol.DeclaredBy uri st
  /-- Documents stand in the order in which they were programs for the first time. -/
  order : s.index.documents.map Prod.fst = h.addresses nesting
  /-- A name has the symbols of all documents with that name, in the order of the documents. -/
  byName : ∀ name, s.index.byName.find? name =
    if h.named nesting name = [] then none else some (h.named nesting name)
  /-- No symbol is found twice. -/
  once : ∀ name, (h.named nesting name).Nodup
  /-- Once the workspace is read, a look-up gives the first symbol and changes nothing. -/
  found : s.indexed = true → ∀ name,
    s.lookup nesting name = (s, .ok (h.named nesting name).head?)
  /-- There is nothing to diagnose if and only if the text is a program. -/
  silent : ∀ uri text, (s.update nesting uri text).2 = .ok [] ↔
    ∃ tokens p, Program.ofSource nesting text = .ok (tokens, p)
  /-- Of a text with a fault there is one diagnostic, and everything stays as it was. -/
  diagnosed : ∀ uri text f, Program.ofSource nesting text = .error (.fault f) →
    s.update nesting uri text = (s, .ok [.ofFault f])
  /-- Everything stays as it was, too, if a text is nested too deeply to tell, which with as many
      levels as the text has tokens none is. -/
  tooDeep : ∀ uri text, Program.ofSource nesting text = .error .tooDeep →
    s.update nesting uri text = (s, .error .tooDeep) ∧ nesting < (scan text).tokens.length
  /-- A document that is opened or changed is diagnosed like its text. -/
  opened : ∀ uri text, (s.openDocument nesting uri text).2 = (s.update nesting uri text).2
  changed : lib.Lawful → ∀ uri text, (lib.opened? s.documents uri).isSome →
    (s.changeDocument nesting uri text).2 = (s.update nesting uri text).2

/-- What is diagnosed does not hang on the `documents` that the library keeps. -/
theorem update_documents_snd (nesting : Nat) (s : Service lib) (documents : lib.Documents)
    (uri text : String) :
    (update nesting { s with documents } uri text).2 = (s.update nesting uri text).2 := by
  unfold update
  cases s.index.update? nesting uri text <;> rfl

theorem openDocument_snd (nesting : Nat) (s : Service lib) (uri text : String) :
    (s.openDocument nesting uri text).2 = (s.update nesting uri text).2 := by
  exact s.update_documents_snd nesting _ uri text

/-- On a `Lawful` library, a document that is open and is changed hands over its new text. -/
theorem changeDocument_of_opened (hlib : lib.Lawful) (nesting : Nat) {s : Service lib}
    {uri : String} (text : String) (hopen : (lib.opened? s.documents uri).isSome) :
    ∃ documents, s.changeDocument nesting uri text =
      update nesting { s with documents } uri text := by
  obtain ⟨documents, hchange, hopened⟩ := hlib.change_of_opened s.documents uri text hopen
  have htext : lib.text documents s.files uri = .ok text :=
    hlib.text_of_opened documents s.files uri text (by simp [hopened])
  refine ⟨documents, ?_⟩
  simp only [changeDocument, hchange]
  have hfiles : files { s with documents } = s.files := rfl
  rw [hfiles, htext]

theorem consistent_of_records {nesting : Nat} {h : History} {s : Service lib}
    (hi : s.index.Records nesting h) : s.Consistent nesting h where
  documents := hi.find?_documents
  declared := by
    intro uri symbol
    rw [Index.ofDocument, hi.find?_documents]
    cases h.latest? nesting uri with
    | none => simp
    | some p => simp [mem_symbols]
  order := by
    rw [hi.documents, List.map_map]
    exact List.map_id _
  byName := hi.find?_byName
  once := History.named_nodup nesting h
  found := by
    intro hindexed name
    simp only [lookup, readWorkspace, hindexed, if_true, Index.find?, hi.named_eq name]
  silent uri _ := s.update_eq_nil_iff uri
  diagnosed uri _ _ hread := s.update_of_fault uri hread
  tooDeep := by
    intro uri text hread
    refine ⟨s.update_of_tooDeep uri hread, ?_⟩
    rcases Program.ofSource_eq_error.1 hread with ⟨f, -, hf⟩ | ⟨tokens, htokens, hdeep⟩
    · cases hf
    · rw [(tokenize_eq_ok.1 htokens).2]
      exact Program.lt_length_of_tooDeep hdeep
  opened := s.openDocument_snd nesting
  changed := by
    intro hlib uri text hopen
    obtain ⟨documents, hchange⟩ := changeDocument_of_opened hlib nesting text hopen
    rw [hchange]
    exact s.update_documents_snd nesting documents uri text

/-- Behind any `requests` the index `Records` what their `history` calls for. -/
theorem records_after (lib : Library) (nesting : Nat) (workspace : Option (List (String × File)))
    (requests : List Request) :
    ((start workspace lib).after nesting requests).index.Records nesting
      ((start workspace lib).history nesting requests) := by
  have hrecords := (Index.Records.empty nesting).foldl_taken
    ((start workspace lib).history nesting requests)
  rw [List.nil_append] at hrecords
  rw [index_after]
  exact hrecords

end Service

end Scripting.Editor
