import Scripting.Proofs.Editor.Requests

set_option autoImplicit false

/-! # The files of a workspace

The first look-up reads the files of the workspace one after the other, in whatever order the system
lists them. A file that may not be opened and one whose text has a fault are passed over. A file
that is no text (`File.trouble?`) breaks the reading off: the files listed before it are in the
index, those behind it are not, and the next look-up begins anew. `FirstLookup` tells this by the
list of the files alone, and `firstLookup_of_unread` shows it of any service that has not read
them. -/

namespace Scripting

/-! ## What there is to a file -/

namespace File

/-- The program in `file`, if its text is one. -/
def program? (nesting : Nat) (file : File) : Option Program :=
  match file.read with
  | .error _ => none
  | .ok content =>
    match textOfBytes content with
    | .error _ => none
    | .ok text => (Program.ofSource nesting text).toOption.map Prod.snd

/-- What in `file` breaks the reading of a workspace off. -/
def trouble? (nesting : Nat) (file : File) : Option Editor.Trouble :=
  match file.read with
  | .error _ => none
  | .ok content =>
    match textOfBytes content with
    | .error f => some (.undecodable f)
    | .ok text =>
      match Program.ofSource nesting text with
      | .error .tooDeep => some .tooDeep
      | _ => none

variable {nesting : Nat} {file : File} {text : String}

/-- A file that is a text with no more tokens than there are levels of nesting is no trouble, and
    neither is one that may not be read. -/
theorem trouble?_eq_none
    (h : ∀ content, file.read = .ok content →
      ∃ text, textOfBytes content = .ok text ∧ (scan text).tokens.length ≤ nesting) :
    file.trouble? nesting = none := by
  unfold trouble?
  cases hread : file.read with
  | error why => rfl
  | ok content =>
    obtain ⟨text, htext, hroom⟩ := h content hread
    simp only [htext]
    split
    · rename_i hdeep
      rcases Program.ofSource_eq_error.1 hdeep with ⟨f, -, hf⟩ | ⟨tokens, htokens, hdeep⟩
      · cases hf
      · have hlt := Program.lt_length_of_tooDeep hdeep
        rw [(tokenize_eq_ok.1 htokens).2] at hroom
        omega
    · rfl

/-- What a reading of the workspace can meet in `file`. -/
inductive Contents (nesting : Nat) (file : File) : Prop where
  | unreadable {why : Unreadable} (hread : file.read = .error why)
  | undecodable {content : ByteArray} {f : Text.Utf8Fault} (hread : file.read = .ok content)
      (hdecode : textOfBytes content = .error f)
  | tooDeep {content : ByteArray} {text : String} (hread : file.read = .ok content)
      (hdecode : textOfBytes content = .ok text)
      (hsource : Program.ofSource nesting text = .error .tooDeep)
  | fault {content : ByteArray} {text : String} {f : Fault} (hread : file.read = .ok content)
      (hdecode : textOfBytes content = .ok text)
      (hsource : Program.ofSource nesting text = .error (.fault f))
  | program {content : ByteArray} {text : String} {tokens : List Token} {p : Program}
      (hread : file.read = .ok content) (hdecode : textOfBytes content = .ok text)
      (hsource : Program.ofSource nesting text = .ok (tokens, p))

theorem contents (nesting : Nat) (file : File) : file.Contents nesting := by
  cases hread : file.read with
  | error why => exact .unreadable hread
  | ok content =>
    cases hdecode : textOfBytes content with
    | error f => exact .undecodable hread hdecode
    | ok text =>
      rcases hsource : Program.ofSource nesting text with (f | _) | ⟨tokens, p⟩
      · exact .fault hread hdecode hsource
      · exact .tooDeep hread hdecode hsource
      · exact .program hread hdecode hsource

theorem program?_eq_some_iff {p : Program} :
    file.program? nesting = some p ↔
      ∃ text tokens, file.HasText text ∧ Program.ofSource nesting text = .ok (tokens, p) := by
  constructor
  · intro h
    unfold program? at h
    cases hread : file.read with
    | error why => simp [hread] at h
    | ok content =>
      cases hdecode : textOfBytes content with
      | error f => simp [hread, hdecode] at h
      | ok text =>
        cases hsource : Program.ofSource nesting text with
        | error e => simp [hread, hdecode, hsource, Except.toOption] at h
        | ok read =>
          simp only [hread, hdecode, hsource, Except.toOption, Option.map_some,
            Option.some.injEq] at h
          subst h
          exact ⟨text, read.1, ⟨content, hread, hdecode⟩, hsource⟩
  · rintro ⟨text, tokens, ⟨content, hread, hdecode⟩, hsource⟩
    simp [program?, hread, hdecode, hsource, Except.toOption]

end File

namespace Editor

/-- Whether the index `i` has the symbols of the program `p` under the address `uri`, and each by
    its name too. -/
def Index.Holds (i : Index) (uri : String) (p : Program) : Prop :=
  i.documents.find? uri = some (symbols uri p) ∧ ∀ s ∈ symbols uri p, s ∈ i.named s.name

namespace Service

variable {lib : Library}

/-! ## The programs in files -/

/-- The `files` of a workspace up to the first one that is `trouble?`. -/
def reached (nesting : Nat) (files : List (String × File)) : List (String × File) :=
  files.takeWhile fun f => (f.2.trouble? nesting).isNone

/-- The programs in `files`, each with the address of its file, `fileUri`. -/
def programsIn (lib : Library) (nesting : Nat) (files : List (String × File)) :
    List (String × Program) :=
  files.filterMap fun f => (f.2.program? nesting).map fun p => (lib.fileUri f.1, p)

/-- The program of the document `uri` as a reading of the workspace finds it. -/
def diskProgram? (lib : Library) (nesting : Nat) (files : List (String × File)) (uri : String) :
    Option Program :=
  (programsIn lib nesting (reached nesting (programFiles files))).reverse.lookup uri

section Files

variable {nesting : Nat} {files before behind : List (String × File)} {path : String} {file : File}

theorem reached_append (hbefore : ∀ f ∈ before, f.2.trouble? nesting = none) :
    reached nesting (before ++ behind) = before ++ reached nesting behind := by
  unfold reached
  rw [List.takeWhile_append_of_pos]
  intro f hf
  rw [hbefore f hf]
  rfl

theorem reached_of_untroubled (h : ∀ f ∈ files, f.2.trouble? nesting = none) :
    reached nesting files = files := by
  have hall : reached nesting (files ++ []) = files ++ [] := reached_append h
  rwa [List.append_nil] at hall

theorem reached_of_troubled {t : Trouble} (hbefore : ∀ f ∈ before, f.2.trouble? nesting = none)
    (ht : file.trouble? nesting = some t) :
    reached nesting (before ++ (path, file) :: behind) = before := by
  rw [reached_append hbefore, reached, List.takeWhile_cons_of_neg (by simp [ht]), List.append_nil]

theorem mem_programsIn {e : String × Program} :
    e ∈ programsIn lib nesting files ↔
      ∃ f ∈ files, f.2.program? nesting = some e.2 ∧ lib.fileUri f.1 = e.1 := by
  unfold programsIn
  rw [List.mem_filterMap]
  refine exists_congr fun f => and_congr_right fun _ => ?_
  rw [Option.map_eq_some_iff]
  constructor
  · rintro ⟨p, hp, rfl⟩
    exact ⟨hp, rfl⟩
  · rintro ⟨hp, huri⟩
    exact ⟨e.2, hp, by rw [huri]⟩

/-- What is found under an address is in a file of that address. -/
theorem mem_of_lookup_programsIn {uri : String} {p : Program}
    (h : (programsIn lib nesting files).reverse.lookup uri = some p) :
    ∃ f ∈ files, f.2.program? nesting = some p ∧ lib.fileUri f.1 = uri := by
  obtain ⟨front, rest, hsplit, -⟩ := List.lookup_eq_some_iff.1 h
  have hin : (uri, p) ∈ programsIn lib nesting files := by
    rw [← List.mem_reverse, hsplit]
    simp
  exact mem_programsIn.1 hin

/-- Files with different paths are found as they are. -/
theorem lookup_programsIn {p : Program} (haddresses : Function.Injective lib.fileUri)
    (hpaths : (files.map Prod.fst).Nodup)
    (hmem : (path, file) ∈ files) (hp : file.program? nesting = some p) :
    (programsIn lib nesting files).reverse.lookup (lib.fileUri path) = some p := by
  have hsome : ((programsIn lib nesting files).reverse.lookup (lib.fileUri path)).isSome := by
    rw [Option.isSome_iff_ne_none, ne_eq, List.lookup_eq_none_iff]
    intro hnone
    have hin : (lib.fileUri path, p) ∈ programsIn lib nesting files :=
      mem_programsIn.2 ⟨_, hmem, hp, rfl⟩
    simpa using hnone _ (List.mem_reverse.2 hin)
  obtain ⟨q, hq⟩ := Option.isSome_iff_exists.1 hsome
  obtain ⟨⟨path', file'⟩, hmem', hq', huri⟩ := mem_of_lookup_programsIn hq
  obtain rfl : path' = path := haddresses huri
  obtain rfl : file' = file := by
    have hfile := List.inj_on_of_nodup_map hpaths hmem' hmem rfl
    exact congrArg Prod.snd hfile
  rw [hq, ← hq', hp]

theorem mem_programFiles {f : String × File} :
    f ∈ programFiles files ↔ f ∈ files ∧ f.1.endsWith fileEnding = true := by
  rw [programFiles, List.mem_filter]

theorem nodup_programFiles (hpaths : (files.map Prod.fst).Nodup) :
    ((programFiles files).map Prod.fst).Nodup :=
  hpaths.sublist (List.filter_sublist.map Prod.fst)

/-- A reading that gets to the program `p` finds it. -/
theorem diskProgram?_eq_some {p : Program} (haddresses : Function.Injective lib.fileUri)
    (hpaths : (files.map Prod.fst).Nodup)
    (hmem : (path, file) ∈ reached nesting (programFiles files))
    (hp : file.program? nesting = some p) :
    diskProgram? lib nesting files (lib.fileUri path) = some p := by
  have hsublist : (reached nesting (programFiles files)).Sublist (programFiles files) :=
    List.takeWhile_sublist _
  exact lookup_programsIn haddresses
    ((nodup_programFiles hpaths).sublist (hsublist.map Prod.fst)) hmem hp

/-- A file from the first one on that is `trouble?` is not found. -/
theorem diskProgram?_eq_none {t : Trouble} (haddresses : Function.Injective lib.fileUri)
    (hpaths : (files.map Prod.fst).Nodup)
    (hsplit : programFiles files = before ++ (path, file) :: behind)
    (hbefore : ∀ f ∈ before, f.2.trouble? nesting = none) (ht : file.trouble? nesting = some t)
    {f : String × File} (hf : f ∈ (path, file) :: behind) :
    diskProgram? lib nesting files (lib.fileUri f.1) = none := by
  rw [Option.eq_none_iff_forall_ne_some]
  intro p hp
  rw [diskProgram?, hsplit, reached_of_troubled hbefore ht] at hp
  obtain ⟨f', hf', -, huri⟩ := mem_of_lookup_programsIn hp
  -- two files of one address have one path, which no two files have
  have hnodup := nodup_programFiles hpaths
  rw [hsplit, List.map_append, List.nodup_append] at hnodup
  exact hnodup.2.2 _ (List.mem_map_of_mem hf') _ (List.mem_map_of_mem hf) (haddresses huri)

end Files

/-! ## Reading the files -/

section Reading

variable (nesting : Nat) (s : Service lib)

/-- The programs among the texts that are read are those in the files that are `reached`. -/
theorem programs_textsRead (files : List (String × File)) :
    (textsRead lib nesting files).programs nesting =
      programsIn lib nesting (reached nesting files) := by
  induction files with
  | nil => rfl
  | cons f rest ih =>
    obtain ⟨path, file⟩ := f
    cases File.contents nesting file with
    | unreadable hread =>
      simpa [textsRead, reached, programsIn, File.trouble?, File.program?, hread] using ih
    | undecodable hread hdecode =>
      simp [textsRead, reached, programsIn, File.trouble?, hread, hdecode, History.programs]
    | tooDeep hread hdecode hsource =>
      simp [textsRead, reached, programsIn, File.trouble?, hread, hdecode, hsource,
        History.programs, Except.toOption]
    | fault hread hdecode hsource =>
      simpa [textsRead, reached, programsIn, File.trouble?, File.program?, hread, hdecode, hsource,
        History.programs, Except.toOption] using ih
    | program hread hdecode hsource =>
      simpa [textsRead, reached, programsIn, File.trouble?, File.program?, hread, hdecode, hsource,
        History.programs, Except.toOption] using ih

theorem diskProgram?_eq (files : List (String × File)) (uri : String) :
    diskProgram? lib nesting files uri =
      (textsRead lib nesting (programFiles files)).latest? nesting uri := by
  rw [diskProgram?, ← programs_textsRead]
  rfl

/-- Files are read to the end by `readFiles` if none of them is `trouble?`, and up to the first one
    that is. -/
theorem readFiles_snd (files : List (String × File)) :
    (s.readFiles nesting files).2 =
      match files.findSome? fun f => f.2.trouble? nesting with
      | none => .ok ()
      | some t => .error t := by
  induction files generalizing s with
  | nil => rfl
  | cons f rest ih =>
    obtain ⟨path, file⟩ := f
    cases File.contents nesting file with
    | unreadable hread => simpa [readFiles, File.trouble?, hread] using ih s
    | undecodable hread hdecode => simp [readFiles, File.trouble?, hread, hdecode]
    | tooDeep hread hdecode hsource =>
      rw [readFiles_of_error hread hdecode rest (s.update_of_tooDeep _ hsource)]
      simp [File.trouble?, hread, hdecode, hsource]
    | fault hread hdecode hsource =>
      rw [readFiles_of_ok hread hdecode rest (s.update_of_fault _ hsource), ih]
      simp [File.trouble?, hread, hdecode, hsource]
    | program hread hdecode hsource =>
      rw [readFiles_of_ok hread hdecode rest (s.update_of_ok _ hsource), ih]
      simp [File.trouble?, hread, hdecode, hsource]

/-- `readFiles` changes nothing but the `index`. -/
theorem readFiles_fst (files : List (String × File)) :
    (s.readFiles nesting files).1 = { s with index := (s.readFiles nesting files).1.index } := by
  induction files generalizing s with
  | nil => rfl
  | cons f rest ih =>
    obtain ⟨path, file⟩ := f
    cases File.contents nesting file with
    | unreadable hread => simpa only [readFiles, hread] using ih s
    | undecodable hread hdecode => simp only [readFiles, hread, hdecode]
    | tooDeep hread hdecode hsource =>
      rw [readFiles_of_error hread hdecode rest (s.update_of_tooDeep _ hsource)]
    | fault hread hdecode hsource =>
      rw [readFiles_of_ok hread hdecode rest (s.update_of_fault _ hsource)]
      exact ih s
    | program hread hdecode hsource =>
      rw [readFiles_of_ok hread hdecode rest (s.update_of_ok _ hsource)]
      exact ih _

/-- `readWorkspace` puts no other `workspace` in place of the one that there is. -/
theorem workspace_readWorkspace : (s.readWorkspace nesting).1.workspace = s.workspace := by
  have hfiles : (s.readFiles nesting (programFiles s.files)).1.workspace = s.workspace := by
    rw [readFiles_fst]
  unfold readWorkspace
  split
  · rfl
  · split <;> rename_i hread <;> rw [hread] at hfiles <;> exact hfiles

theorem workspace_lookup (name : String) :
    (s.lookup nesting name).1.workspace = s.workspace := by
  have hworkspace := s.workspace_readWorkspace nesting
  unfold lookup
  split <;> rename_i hread <;> rw [hread] at hworkspace <;> exact hworkspace

theorem workspace_update (uri text : String) :
    (s.update nesting uri text).1.workspace = s.workspace := by
  unfold update
  split <;> rfl

theorem workspace_serve (r : Request) : (s.serve nesting r).workspace = s.workspace := by
  cases r with
  | update uri text => exact s.workspace_update nesting uri text
  | opening uri text =>
    exact workspace_update nesting { s with documents := lib.opening s.documents uri text } uri text
  | change uri text =>
    simp only [serve, changeDocument]
    cases lib.change s.documents uri text with
    | error t => rfl
    | ok documents =>
      dsimp only
      split
      · rfl
      · exact workspace_update nesting { s with documents } uri _
  | lookup name => exact s.workspace_lookup nesting name
  | symbolAt uri line offset =>
    simp only [serve, symbolAt]
    split
    · rfl
    · split
      · rfl
      · exact s.workspace_lookup nesting _

theorem workspace_after (requests : List Request) :
    (s.after nesting requests).workspace = s.workspace := by
  induction requests using List.reverseRecOn with
  | nil => rfl
  | append_singleton requests r ih => rw [after_concat, workspace_serve, ih]

end Reading

/-! ## The first look-up -/

section Lookup

variable {nesting : Nat} {files : List (String × File)} {requests : List Request}

/-- Behind a `lookup` that reads the workspace the document `uri` has the symbols of the program
    that the reading found for it, `diskProgram?`, and otherwise those that it had. -/
theorem find?_documents_lookup
    (hunread : ((start (some files) lib).after nesting requests).indexed = false)
    (name uri : String) :
    (((start (some files) lib).after nesting requests).lookup nesting name).1.index.documents.find?
        uri =
      ((diskProgram? lib nesting files uri).or
        (((start (some files) lib).history nesting requests).latest? nesting uri)).map
          (symbols uri) := by
  have hrecords := records_after lib nesting (some files) (requests ++ [.lookup name])
  have hworkspace := (start (some files) lib).workspace_after nesting requests
  have htexts : ((start (some files) lib).after nesting requests).texts nesting (.lookup name) =
      textsRead lib nesting (programFiles files) := by
    rw [texts, textsToRead, Service.files, hunread, hworkspace]
    rfl
  rw [after_concat, history_concat, htexts] at hrecords
  have hdocuments := hrecords.find?_documents uri
  rwa [History.latest?_append, ← diskProgram?_eq] at hdocuments

/-- The symbols that a `Consistent` service has of a document are found by their names too. -/
theorem Consistent.mem_named {h : History} {s : Service lib} {uri : String} {found : List Symbol}
    (hs : s.Consistent nesting h) (hfound : s.index.documents.find? uri = some found)
    {symbol : Symbol} (hsymbol : symbol ∈ found) : symbol ∈ s.index.named symbol.name := by
  obtain ⟨p, hp, rfl⟩ := Option.map_eq_some_iff.1 ((hs.documents uri).symm.trans hfound)
  have hmem : symbol ∈ h.named nesting symbol.name := by
    refine List.mem_filter.2 ⟨List.mem_flatMap.2 ⟨uri, ?_, ?_⟩, by simp⟩
    · exact History.mem_addresses_iff.2 (by simp [hp])
    · simpa [History.symbolsOf, hp] using hsymbol
  rw [Index.named, hs.byName, if_neg (List.ne_nil_of_mem hmem)]
  exact hmem

/-- What becomes of a look-up of the service `s` that finds the `files` of a workspace unread. -/
structure FirstLookup (nesting : Nat) (files : List (String × File)) (s : Service lib) : Prop where
  /-- If every file that may be read is a text and not nested too deeply, the look-up answers, the
      workspace counts as read, and the index has all programs, whatever the other files are. -/
  robust : (∀ f ∈ files, f.1.endsWith fileEnding = true → ∀ content, f.2.read = .ok content →
      ∃ text, textOfBytes content = .ok text ∧ (scan text).tokens.length ≤ nesting) →
    ∀ name, ∃ s', s.lookup nesting name = (s', .ok (s'.index.find? name)) ∧ s'.indexed = true ∧
      ∀ path file text tokens p, (path, file) ∈ files → path.endsWith fileEnding = true →
        file.HasText text → Program.ofSource nesting text = .ok (tokens, p) →
        s'.index.Holds (lib.fileUri path) p
  /-- The first of the files, as they are listed, that is no text or is nested too deeply ends the
      look-up, and the workspace counts as unread. The index has the programs listed before the
      file. The files from there on leave it as it was. -/
  breaksOff : ∀ before path file behind t,
    programFiles files = before ++ (path, file) :: behind →
    (∀ f ∈ before, f.2.trouble? nesting = none) → file.trouble? nesting = some t →
    ∀ name, ∃ s', s.lookup nesting name = (s', .error t) ∧ s'.indexed = false ∧
      (∀ path file text tokens p, (path, file) ∈ before → file.HasText text →
        Program.ofSource nesting text = .ok (tokens, p) → s'.index.Holds (lib.fileUri path) p) ∧
      ∀ f ∈ (path, file) :: behind,
        s'.index.documents.find? (lib.fileUri f.1) = s.index.documents.find? (lib.fileUri f.1)

/-- The index behind a `lookup` has the programs of all files that are `reached`. -/
theorem holds_lookup (haddresses : Function.Injective lib.fileUri)
    (hpaths : (files.map Prod.fst).Nodup)
    (hunread : ((start (some files) lib).after nesting requests).indexed = false) (name : String)
    {path : String} {file : File} {text : String} {tokens : List Token} {p : Program}
    (hmem : (path, file) ∈ reached nesting (programFiles files)) (htext : file.HasText text)
    (hsource : Program.ofSource nesting text = .ok (tokens, p)) :
    (((start (some files) lib).after nesting requests).lookup nesting name).1.index.Holds
      (lib.fileUri path) p := by
  have hp : file.program? nesting = some p := File.program?_eq_some_iff.2 ⟨_, _, htext, hsource⟩
  have hfound := find?_documents_lookup hunread name (lib.fileUri path)
  rw [diskProgram?_eq_some haddresses hpaths hmem hp, Option.some_or, Option.map_some] at hfound
  have hconsistent := consistent_of_records
    (records_after lib nesting (some files) (requests ++ [.lookup name]))
  rw [after_concat] at hconsistent
  exact ⟨hfound, fun symbol hsymbol => hconsistent.mem_named hfound hsymbol⟩

/-- Behind files that are no `trouble?` a look-up answers. -/
theorem lookup_of_untroubled {s : Service lib} (hunread : s.indexed = false)
    (h : ∀ f ∈ programFiles s.files, f.2.trouble? nesting = none) (name : String) :
    ∃ s', s.lookup nesting name = (s', .ok (s'.index.find? name)) ∧ s'.indexed = true := by
  have hread := s.readFiles_snd nesting (programFiles s.files)
  rw [List.findSome?_eq_none_iff.2 h] at hread
  cases hfiles : s.readFiles nesting (programFiles s.files) with
  | mk s₁ r =>
    obtain rfl : r = .ok () := by rwa [hfiles] at hread
    exact ⟨{ s₁ with indexed := true }, by simp [lookup, readWorkspace, hunread, hfiles], rfl⟩

/-- The first `file` that is `trouble?` ends a look-up, which is then as if it had not been made. -/
theorem lookup_of_troubled {s : Service lib} {path : String} {file : File} {t : Trouble}
    {before behind : List (String × File)} (hunread : s.indexed = false)
    (hfiles : programFiles s.files = before ++ (path, file) :: behind)
    (hbefore : ∀ f ∈ before, f.2.trouble? nesting = none) (ht : file.trouble? nesting = some t)
    (name : String) :
    ∃ s', s.lookup nesting name = (s', .error t) ∧ s'.indexed = false := by
  have hread := s.readFiles_snd nesting (programFiles s.files)
  have hkept := s.readFiles_fst nesting (programFiles s.files)
  have hfirst : ((programFiles s.files).findSome? fun f => f.2.trouble? nesting) =
      some t := by
    rw [hfiles, List.findSome?_append, List.findSome?_eq_none_iff.2 hbefore, List.findSome?_cons,
      ht]
    rfl
  rw [hfirst] at hread
  cases hrun : s.readFiles nesting (programFiles s.files) with
  | mk s₁ r =>
    rw [hrun] at hread hkept
    obtain rfl : r = .error t := hread
    refine ⟨s₁, by simp [lookup, readWorkspace, hunread, hrun], ?_⟩
    have hindexed := congrArg indexed hkept
    exact hindexed.trans hunread

/-- Whatever `requests` were made of a service before, the first look-up reads the files of the
    workspace, and it does so to the end unless one of them is no text or is nested too deeply. -/
theorem firstLookup_of_unread (haddresses : Function.Injective lib.fileUri)
    (hpaths : (files.map Prod.fst).Nodup)
    (hunread : ((start (some files) lib).after nesting requests).indexed = false) :
    FirstLookup nesting files ((start (some files) lib).after nesting requests) := by
  have hworkspace : ((start (some files) lib).after nesting requests).files = files := by
    rw [Service.files, workspace_after]
    rfl
  constructor
  · intro hfiles name
    have huntroubled : ∀ f ∈ programFiles files, f.2.trouble? nesting = none := by
      intro f hf
      obtain ⟨hmem, hending⟩ := mem_programFiles.1 hf
      exact File.trouble?_eq_none (hfiles f hmem hending)
    obtain ⟨s', hs', hindexed⟩ :=
      lookup_of_untroubled hunread (by rwa [hworkspace]) name
    refine ⟨s', hs', hindexed, fun path file text tokens p hmem hending htext hsource => ?_⟩
    have hreached : (path, file) ∈ reached nesting (programFiles files) := by
      rw [reached_of_untroubled huntroubled]
      exact mem_programFiles.2 ⟨hmem, hending⟩
    have hholds := holds_lookup haddresses hpaths hunread name hreached htext hsource
    rwa [hs'] at hholds
  · intro before path file behind t hsplit hbefore ht name
    obtain ⟨s', hs', hindexed⟩ :=
      lookup_of_troubled hunread (by rwa [hworkspace]) hbefore ht name
    have hreached : reached nesting (programFiles files) = before := by
      rw [hsplit, reached_of_troubled hbefore ht]
    refine ⟨s', hs', hindexed, fun path file text tokens p hmem htext hsource => ?_, ?_⟩
    · have hholds := holds_lookup haddresses hpaths hunread name (hreached ▸ hmem) htext hsource
      rwa [hs'] at hholds
    · intro f hf
      have hnone := diskProgram?_eq_none haddresses hpaths hsplit hbefore ht hf
      have hfound := find?_documents_lookup hunread name (lib.fileUri f.1)
      rw [hs', hnone, Option.none_or] at hfound
      rw [hfound, (records_after lib nesting (some files) requests).find?_documents]

/-- A workspace whose files are not listed in alphabetical order. The last of them is no text, and
    the one in the middle may not be read. -/
theorem firstLookup_of_unsorted :
    let files : List (String × File) :=
      [("b.sprig", .bytes "let f;".toUTF8), ("c.sprig", .locked),
        ("a/x.sprig", .bytes ⟨#[0xff]⟩)]
    Function.Injective Library.standard.fileUri ∧ (files.map Prod.fst).Nodup ∧
      ((start (some files)).after 8 []).indexed = false ∧
      FirstLookup 8 files ((start (some files)).after 8 []) ∧
      ((start (some files)).lookup 8 "f").2 = .error (.undecodable ⟨.startByte, 0, 0xff, 1⟩) ∧
      (((start (some files)).lookup 8 "f").1.index.named "f").map Symbol.uri =
        ["root:/b.sprig"] := by
  intro files
  have haddresses := Library.standard_lawful.fileUri_injective
  have hpaths : (files.map Prod.fst).Nodup := by decide
  have hunread : ((start (some files)).after 8 []).indexed = false := rfl
  have hanswer : ((start (some files)).lookup 8 "f").2 =
      .error (.undecodable ⟨.startByte, 0, 0xff, 1⟩) := by cbv
  have hfound : (((start (some files)).lookup 8 "f").1.index.named "f").map Symbol.uri =
      ["root:/b.sprig"] := by cbv
  exact ⟨haddresses, hpaths, hunread, firstLookup_of_unread haddresses hpaths hunread, hanswer,
    hfound⟩

/-- A look-up does not answer whatever the files are. The second file here is a program, but the
    first one is no text. -/
theorem not_lookup_answers :
    ¬ ∀ (nesting : Nat) (files : List (String × File)) (name : String),
      (∀ path file text, (path, file) ∈ files → file.HasText text →
        Program.ofSource nesting text ≠ .error .tooDeep) →
      ∃ s' found, (start (some files)).lookup nesting name = (s', .ok found) ∧
        s'.indexed = true ∧
        ∀ path file text tokens p, (path, file) ∈ files → path.endsWith fileEnding = true →
          file.HasText text → Program.ofSource nesting text = .ok (tokens, p) →
          s'.index.Holds (Library.standard.fileUri path) p := by
  intro hclaim
  let files : List (String × File) :=
    [("a.sprig", .bytes ⟨#[0xff]⟩), ("b.sprig", .bytes "fn f() \x7b \x7d".toUTF8)]
  have hlookup : ((start (some files)).lookup 8 "f").2 =
      .error (.undecodable ⟨.startByte, 0, 0xff, 1⟩) := by
    cbv
  have hroom : ∀ path file text, (path, file) ∈ files → file.HasText text →
      Program.ofSource 8 text ≠ .error .tooDeep := by
    intro path file text hmem htext
    simp only [files, List.mem_cons, List.not_mem_nil, or_false, Prod.mk.injEq] at hmem
    obtain ⟨-, rfl⟩ | ⟨-, rfl⟩ := hmem
    · have hdecode : textOfBytes ⟨#[0xff]⟩ = .error ⟨.startByte, 0, 0xff, 1⟩ := by cbv
      exact absurd htext (File.not_hasText_of_undecodable rfl hdecode)
    · have hdecode : File.HasText (.bytes "fn f() \x7b \x7d".toUTF8) "fn f() \x7b \x7d" :=
        ⟨_, rfl, by cbv⟩
      rw [hdecode.unique htext]
      cbv
      simp
  obtain ⟨s', found, hanswer, -, -⟩ := hclaim 8 files "f" hroom
  rw [hanswer] at hlookup
  cases hlookup

end Lookup

end Service

end Editor

end Scripting
