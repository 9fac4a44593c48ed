import Scripting.Proofs.Editor.Workspace

set_option autoImplicit false

/-! # Texts in the editor and texts on the disk

A document has the symbols of the last of its texts that was a program. The editor hands over texts
when something is opened or changed, and a reading of the workspace hands over what is on the disk.
`Sources` keeps the two apart. So the editor's text comes before the one on the disk as long as the
workspace has not been read, and again once a program has been typed after that. In between the file
on the disk comes first, where it is a program: the reading does not look at which documents are
open. `Precedence` tells this for any library that keeps the texts in the editor. -/

namespace Scripting.Editor.Service

variable {lib : Library}

/-! ## Where texts come from -/

/-- Whether a request makes the service `s` read the workspace. -/
def reads (s : Service lib) : Request → Bool
  | .update _ _ | .opening _ _ | .change _ _ => false
  | .lookup _ => !s.indexed
  | .symbolAt uri line offset =>
    match lib.text s.documents s.files uri with
    | .error _ => false
    | .ok text => !s.indexed && lib.wordAt text line offset != ""

/-- The text that the editor gives the service `s` with a request. It is of no account where a
    document is changed that is not open. -/
def given (s : Service lib) : Request → History
  | .update uri text | .opening uri text => [(uri, text)]
  | .change uri text => if (lib.opened? s.documents uri).isSome then [(uri, text)] else []
  | .lookup _ | .symbolAt _ _ _ => []

/-- The texts that the editor has `given`, those of them that it gave `since` the last reading of
    the workspace, and whether there was one, `read`. -/
structure Sources where
  given : History
  since : History
  read : Bool

/-- The sources `src` behind one more request `r` to the service `s`. -/
def Sources.next (s : Service lib) (src : Sources) (r : Request) : Sources :=
  if s.reads r then { src with since := [], read := true }
  else { src with given := src.given ++ s.given r, since := src.since ++ s.given r }

/-- The sources behind requests one after the other. -/
def Sources.after (nesting : Nat) : Service lib → Sources → List Request → Sources
  | _, src, [] => src
  | s, src, r :: rest => after nesting (s.serve nesting r) (src.next s r) rest

/-- The sources of a service that begins with a workspace, behind `requests`. -/
def sources (lib : Library) (nesting : Nat) (files : List (String × File))
    (requests : List Request) : Sources :=
  Sources.after nesting (start (some files) lib) ⟨[], [], false⟩ requests

/-- What the document `uri` is found to be on the disk, if there was a reading. -/
def Sources.onDisk? (lib : Library) (nesting : Nat) (files : List (String × File)) (src : Sources)
    (uri : String) : Option Program :=
  if src.read then diskProgram? lib nesting files uri else none

section Histories

variable {nesting : Nat} {files : List (String × File)} {s : Service lib} {src : Sources}
  {h : History}

/-- A request that `reads` hands over the texts of the files. -/
theorem texts_of_reads (nesting : Nat) {r : Request} (hreads : s.reads r = true) :
    s.texts nesting r = textsRead lib nesting (programFiles s.files) := by
  cases r with
  | update uri text => cases hreads
  | opening uri text => cases hreads
  | change uri text => cases hreads
  | lookup name =>
    have hunread : s.indexed = false := by simpa [reads] using hreads
    simp [texts, textsToRead, hunread]
  | symbolAt uri line offset =>
    cases htext : lib.text s.documents s.files uri with
    | error t => simp [reads, htext] at hreads
    | ok text =>
      obtain ⟨hunread, hword⟩ : s.indexed = false ∧ lib.wordAt text line offset ≠ "" := by
        simpa [reads, htext] using hreads
      simp [texts, htext, hword, textsToRead, hunread]

/-- Any other request hands over the text that is `given` with it, on a library that is `Lawful`. -/
theorem texts_of_not_reads (hlib : lib.Lawful) (nesting : Nat) {r : Request}
    (hreads : ¬ s.reads r = true) : s.texts nesting r = s.given r := by
  cases r with
  | update uri text => rfl
  | opening uri text => rfl
  | change uri text =>
    simp only [texts, given]
    cases hopen : lib.opened? s.documents uri with
    | none =>
      obtain ⟨t, ht⟩ := hlib.change_of_unopened s.documents uri text hopen
      rw [ht]
      rfl
    | some before =>
      obtain ⟨documents, hchange, hopened⟩ :=
        hlib.change_of_opened s.documents uri text (by simp [hopen])
      have htext : lib.text documents s.files uri = .ok text :=
        hlib.text_of_opened documents s.files uri text (by simp [hopened])
      simp [hchange, htext]
  | lookup name =>
    have hread : s.indexed = true := by simpa [reads] using hreads
    simp [texts, given, textsToRead, hread]
  | symbolAt uri line offset =>
    cases htext : lib.text s.documents s.files uri with
    | error t => simp [texts, given, htext]
    | ok text =>
      by_cases hword : lib.wordAt text line offset = ""
      · simp [texts, given, htext, hword]
      · have hread : s.indexed = true := by simpa [reads, htext, hword] using hreads
        simp [texts, given, htext, textsToRead, hread]

/-- Whether the programs of the history `h` are told by the sources `src`. -/
structure Sources.Tell (lib : Library) (nesting : Nat) (files : List (String × File))
    (src : Sources) (h : History) : Prop where
  /-- What was given after the last reading comes first, then the disk, then everything given. -/
  latest : ∀ uri, h.latest? nesting uri = (src.since.latest? nesting uri).or
    ((src.onDisk? lib nesting files uri).or (src.given.latest? nesting uri))
  /-- What was given after the last reading was given. -/
  since : ∀ uri p, src.since.latest? nesting uri = some p →
    src.given.latest? nesting uri = some p

/-- The step: one more request, `r`. -/
theorem Sources.Tell.next (hlib : lib.Lawful) (htell : src.Tell lib nesting files h)
    (hworkspace : s.workspace = some files) (r : Request) :
    (src.next s r).Tell lib nesting files (h ++ s.texts nesting r) := by
  unfold Sources.next
  split
  · rename_i hreads
    have htexts := texts_of_reads nesting hreads
    rw [Service.files, hworkspace, Option.getD_some] at htexts
    constructor
    · intro uri
      rw [htexts, History.latest?_append, ← diskProgram?_eq, htell.latest]
      -- what was given after the last reading is now part of what was given before this one
      cases hdisk : diskProgram? lib nesting files uri with
      | some p => simp [Sources.onDisk?, hdisk]
      | none =>
        cases hsince : src.since.latest? nesting uri with
        | none => simp [Sources.onDisk?, hdisk]
        | some p => simp [Sources.onDisk?, hdisk, htell.since uri p hsince]
    · intro uri p hp
      cases hp
  · rename_i hreads
    rw [texts_of_not_reads hlib nesting hreads]
    constructor
    · intro uri
      rw [History.latest?_append, History.latest?_append, History.latest?_append, htell.latest]
      cases (s.given r).latest? nesting uri with
      | none => rfl
      | some p => rfl
    · intro uri p hp
      rw [History.latest?_append] at hp ⊢
      cases htext : (s.given r).latest? nesting uri with
      | none => exact htell.since uri p (by simpa [htext] using hp)
      | some q => simpa [htext] using hp

/-- The run: any number of `requests`. -/
theorem Sources.Tell.after (hlib : lib.Lawful) (htell : src.Tell lib nesting files h)
    (hworkspace : s.workspace = some files) (requests : List Request) :
    (Sources.after nesting s src requests).Tell lib nesting files
      (h ++ s.history nesting requests) := by
  induction requests generalizing s src h with
  | nil => simpa [Sources.after, history] using htell
  | cons r rest ih =>
    have hserved := (s.workspace_serve nesting r).trans hworkspace
    have hnext := ih (htell.next hlib hworkspace r) hserved
    rwa [List.append_assoc] at hnext

theorem tell_sources (hlib : lib.Lawful) (nesting : Nat) (files : List (String × File))
    (requests : List Request) :
    (sources lib nesting files requests).Tell lib nesting files
      ((start (some files) lib).history nesting requests) := by
  have hstart : (⟨[], [], false⟩ : Sources).Tell lib nesting files [] := ⟨fun _ => rfl, nofun⟩
  exact hstart.after hlib rfl requests

end Histories

/-! ## Which text wins -/

/-- Where the symbols of documents come from behind `requests`. -/
structure Precedence (lib : Library) (nesting : Nat) (files : List (String × File))
    (requests : List Request) : Prop where
  /-- First comes what the editor gave after the last reading of the workspace, then what that
      reading found on the disk, then what the editor gave before it; each as far as it was a
      program. -/
  symbols : ∀ uri,
    ((start (some files) lib).after nesting requests).index.documents.find? uri =
      (((sources lib nesting files requests).since.latest? nesting uri).or
        (((sources lib nesting files requests).onDisk? lib nesting files uri).or
          ((sources lib nesting files requests).given.latest? nesting uri))).map
        (Editor.symbols uri)
  /-- So the editor's text wins over the disk as long as there was no reading, where a program was
      given after the last one, and where none is found on the disk. -/
  wins : ∀ uri p, (sources lib nesting files requests).given.latest? nesting uri = some p →
    ((sources lib nesting files requests).read = false ∨
      ((sources lib nesting files requests).since.latest? nesting uri).isSome ∨
      diskProgram? lib nesting files uri = none) →
    ((start (some files) lib).after nesting requests).index.documents.find? uri =
      some (Editor.symbols uri p)
  /-- Otherwise the text on the disk takes its place, whatever the editor gave before. -/
  overwritten : ∀ uri q, (sources lib nesting files requests).read = true →
    (sources lib nesting files requests).since.latest? nesting uri = none →
    diskProgram? lib nesting files uri = some q →
    ((start (some files) lib).after nesting requests).index.documents.find? uri =
      some (Editor.symbols uri q)
  /-- A document of which the editor gave no text has its symbols from the disk. -/
  unopened : ∀ uri, (∀ e ∈ (sources lib nesting files requests).given, e.1 ≠ uri) →
    ((start (some files) lib).after nesting requests).index.documents.find? uri =
      ((sources lib nesting files requests).onDisk? lib nesting files uri).map (Editor.symbols uri)

theorem precedence (hlib : lib.Lawful) (nesting : Nat) (files : List (String × File))
    (requests : List Request) : Precedence lib nesting files requests := by
  have htell := tell_sources hlib nesting files requests
  have hsymbols (uri : String) :
      ((start (some files) lib).after nesting requests).index.documents.find? uri =
        (((sources lib nesting files requests).since.latest? nesting uri).or
          (((sources lib nesting files requests).onDisk? lib nesting files uri).or
            ((sources lib nesting files requests).given.latest? nesting uri))).map
              (Editor.symbols uri) := by
    rw [(records_after lib nesting (some files) requests).find?_documents, htell.latest]
  refine ⟨hsymbols, ?_, ?_, ?_⟩
  · intro uri p hgiven hwins
    rw [hsymbols]
    cases hsince : (sources lib nesting files requests).since.latest? nesting uri with
    | some q =>
      obtain rfl : q = p := by simpa [hgiven] using (htell.since uri q hsince).symm
      rfl
    | none =>
      have hdisk : (sources lib nesting files requests).onDisk? lib nesting files uri = none := by
        rcases hwins with hread | hlater | hnone
        · simp [Sources.onDisk?, hread]
        · simp [hsince] at hlater
        · simp [Sources.onDisk?, hnone]
      simp [hdisk, hgiven]
  · intro uri q hread hsince hdisk
    rw [hsymbols, hsince]
    simp [Sources.onDisk?, hread, hdisk]
  · intro uri hnever
    have hgiven : (sources lib nesting files requests).given.latest? nesting uri = none := by
      rw [Option.eq_none_iff_forall_ne_some]
      intro p hp
      obtain ⟨text, tokens, hmem, -⟩ := History.exists_of_latest? hp
      exact hnever _ hmem rfl
    have hsince : (sources lib nesting files requests).since.latest? nesting uri = none := by
      rw [Option.eq_none_iff_forall_ne_some]
      intro p hp
      cases (htell.since uri p hp).symm.trans hgiven
    rw [hsymbols, hsince, hgiven]
    simp

/-- A workspace with a program, behind which a file is listed that is no text. -/
def halfRead : List (String × File) :=
  [("b.sprig", .bytes "let disk;".toUTF8), ("a/x.sprig", .bytes ⟨#[0xff]⟩)]

/-- The document with the program is opened, a name is looked up, and the document is changed. -/
def typing : List Request :=
  [.opening "root:/b.sprig" "let typed;", .lookup "typed", .change "root:/b.sprig" "let again;"]

/-- The names in the document after so many requests of `typing`. -/
def typedNames (n : Nat) : List String :=
  (((start (some halfRead)).after 8 (typing.take n)).index.ofDocument "root:/b.sprig").map
    Symbol.name

theorem precedence_of_typing :
    Library.standard.Lawful ∧ Precedence .standard 8 halfRead typing ∧
      typedNames 1 = ["typed"] ∧ typedNames 2 = ["disk"] ∧ typedNames 3 = ["again"] := by
  have htyped : typedNames 1 = ["typed"] := by cbv
  have hread : typedNames 2 = ["disk"] := by cbv
  have hagain : typedNames 3 = ["again"] := by cbv
  exact ⟨Library.standard_lawful, precedence Library.standard_lawful 8 halfRead typing, htyped,
    hread, hagain⟩

/-- The editor's text does not always win: a document that is opened before the first look-up gets
    the symbols of its file. -/
theorem not_always_editor :
    ¬ ∀ (nesting : Nat) (files : List (String × File)) (requests : List Request) uri p,
      (sources .standard nesting files requests).given.latest? nesting uri = some p →
      ((start (some files)).after nesting requests).index.documents.find? uri =
        some (Editor.symbols uri p) := by
  intro hclaim
  let files : List (String × File) := [("a.sprig", .bytes "let disk;".toUTF8)]
  let requests : List Request := [.opening "root:/a.sprig" "let typed;", .lookup "typed"]
  have hgiven : ∃ p, (sources .standard 8 files requests).given.latest? 8 "root:/a.sprig" = some p ∧
      (Editor.symbols "root:/a.sprig" p).map (·.name) = ["typed"] := by
    refine ⟨?_, ?read, ?name⟩
    case read => cbv; rfl
    case name => rfl
  have hfound : (((start (some files)).after 8 requests).index.documents.find?
      "root:/a.sprig").map (·.map (·.name)) = some ["disk"] := by
    cbv
  obtain ⟨p, hp, hname⟩ := hgiven
  rw [hclaim 8 files requests _ p hp, Option.map_some, hname] at hfound
  simp at hfound

end Scripting.Editor.Service
