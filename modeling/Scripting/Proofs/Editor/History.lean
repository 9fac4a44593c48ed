import Mathlib.Data.List.Nodup
import Scripting.Editor.Index
import Scripting.Proofs.Grammar.Beginnings
import Scripting.Proofs.Token.Standing

set_option autoImplicit false

/-! # What the index holds

Whatever texts the index has taken in, what it holds is told by those that were programs: the last
one of every document (`History.latest?`), and the order in which the documents were programs for
the first time (`History.addresses`). The `History` of texts is the specification. It is read with
operations on lists that know nothing of the two tables, and the tables are compared with it
(`Index.Records`). -/

namespace Scripting

/-- `put` binds a name where every name has the value that `f` gives it. -/
theorem Bindings.put_map {β : Type} {names : List String} (hnodup : names.Nodup) (f : String → β)
    (name : String) (value : β) :
    Bindings.put name value (names.map fun n => (n, f n)) =
      (if name ∈ names then names else names ++ [name]).map
        fun n => (n, if n = name then value else f n) := by
  induction names with
  | nil => simp [put]
  | cons n rest ih =>
    obtain ⟨hn, hrest⟩ := List.nodup_cons.1 hnodup
    simp only [List.map_cons, put]
    by_cases hname : n = name
    · subst hname
      have hothers : rest.map (fun m => (m, f m)) =
          rest.map fun m => (m, if m = n then value else f m) :=
        List.map_congr_left fun m hm => by rw [if_neg (ne_of_mem_of_not_mem hm hn)]
      simp [hothers]
    · rw [if_neg hname, ih hrest]
      split <;> simp_all [Ne.symm hname]

/-- `find?` looks up a name where every name has the value that `f` gives it. -/
theorem Bindings.find?_map {β : Type} (names : List String) (f : String → β) (name : String) :
    Bindings.find? (names.map fun n => (n, f n)) name =
      if name ∈ names then some (f name) else none := by
  unfold find?
  induction names with
  | nil => rfl
  | cons n rest ih =>
    rw [List.map_cons, List.lookup_cons, ih]
    by_cases hname : name = n
    · simp [hname]
    · simp [hname, beq_false_of_ne hname]

namespace Editor

/-! ## The table by name -/

/-- Filing symbols by `filed` puts each of them behind those with its name. -/
theorem find?_foldl_filed (found : List Symbol) (table : Bindings (List Symbol)) (name : String) :
    (found.foldl filed table).find? name =
      if found.filter (·.name = name) = [] then table.find? name
      else some ((table.find? name).getD [] ++ found.filter (·.name = name)) := by
  induction found generalizing table with
  | nil => rfl
  | cons s rest ih =>
    rw [List.foldl_cons, ih, filed, Bindings.find?_put]
    by_cases hname : s.name = name
    · subst hname
      by_cases hrest : rest.filter (·.name = s.name) = []
      · simp [hrest]
      · simp [hrest]
    · simp [hname, Ne.symm hname]

/-! ## Histories -/

/-- Texts in the order in which they are taken in, each with the address of its document. -/
abbrev History := List (String × String)

namespace History

/-- The texts of the history `h` that were programs, as such. -/
def programs (nesting : Nat) (h : History) : List (String × Program) :=
  h.filterMap fun e => (Program.ofSource nesting e.2).toOption.map fun read => (e.1, read.2)

/-- The documents that ever were programs, in the order in which they first were. -/
def addresses (nesting : Nat) (h : History) : List String :=
  ((programs nesting h).map Prod.fst).eraseDups

/-- The program that the document `uri` was last. -/
def latest? (nesting : Nat) (h : History) (uri : String) : Option Program :=
  (programs nesting h).reverse.lookup uri

/-- The symbols of the program that the document `uri` was last. -/
def symbolsOf (nesting : Nat) (h : History) (uri : String) : List Symbol :=
  ((latest? nesting h uri).map (symbols uri)).getD []

/-- The symbols with the given name, by document and then in the order of the document. -/
def named (nesting : Nat) (h : History) (name : String) : List Symbol :=
  ((addresses nesting h).flatMap (symbolsOf nesting h)).filter (·.name = name)

variable {nesting : Nat} {h : History} {uri text : String}

@[simp] theorem latest?_nil (uri : String) : latest? nesting [] uri = none := rfl

theorem programs_append (h more : History) :
    programs nesting (h ++ more) = programs nesting h ++ programs nesting more :=
  List.filterMap_append

/-- The program that a document was last is the one that it was in the later texts, `more`, if it
    was one in them. -/
theorem latest?_append (h more : History) (uri : String) :
    latest? nesting (h ++ more) uri = (latest? nesting more uri).or (latest? nesting h uri) := by
  rw [latest?, programs_append, List.reverse_append, List.lookup_append]
  rfl

theorem programs_concat_of_ok {tokens : List Token} {p : Program}
    (hread : Program.ofSource nesting text = .ok (tokens, p)) :
    programs nesting (h ++ [(uri, text)]) = programs nesting h ++ [(uri, p)] := by
  simp [programs, hread, Except.toOption]

/-- A `text` that is no program leaves no trace in `programs`. -/
theorem programs_concat_of_error {e : Refusal}
    (hread : Program.ofSource nesting text = .error e) :
    programs nesting (h ++ [(uri, text)]) = programs nesting h := by
  simp [programs, hread, Except.toOption]

theorem mem_addresses : uri ∈ addresses nesting h ↔ uri ∈ (programs nesting h).map Prod.fst :=
  List.mem_eraseDups

theorem addresses_concat {tokens : List Token} {p : Program}
    (hread : Program.ofSource nesting text = .ok (tokens, p)) :
    addresses nesting (h ++ [(uri, text)]) =
      if uri ∈ addresses nesting h then addresses nesting h else addresses nesting h ++ [uri] := by
  have hconcat : addresses nesting (h ++ [(uri, text)]) = addresses nesting h ++
      ([uri].removeAll ((programs nesting h).map Prod.fst)).eraseDups := by
    rw [addresses, programs_concat_of_ok hread, List.map_append, List.eraseDups_append]
    rfl
  rw [hconcat]
  by_cases hmem : uri ∈ (programs nesting h).map Prod.fst
  · rw [if_pos (mem_addresses.2 hmem)]
    simp [List.removeAll, hmem]
  · rw [if_neg (fun hin => hmem (mem_addresses.1 hin))]
    simp [List.removeAll, hmem, List.eraseDups_cons]

theorem symbolsOf_concat {tokens : List Token} {p : Program} (other : String)
    (hread : Program.ofSource nesting text = .ok (tokens, p)) :
    symbolsOf nesting (h ++ [(uri, text)]) other =
      if other = uri then symbols uri p else symbolsOf nesting h other := by
  rw [symbolsOf, latest?, programs_concat_of_ok hread, List.reverse_append, List.reverse_singleton,
    List.singleton_append, List.lookup_cons]
  by_cases hother : other = uri
  · simp [hother]
  · simp [hother, beq_false_of_ne hother, symbolsOf, latest?]

/-- Every document is counted once among the `addresses`. -/
theorem addresses_nodup (nesting : Nat) (h : History) : (addresses nesting h).Nodup := by
  induction h using List.reverseRecOn with
  | nil => exact List.nodup_nil
  | append_singleton h e ih =>
    obtain ⟨uri, text⟩ := e
    cases hread : Program.ofSource nesting text with
    | error e => rwa [addresses, programs_concat_of_error hread]
    | ok read =>
      rw [addresses_concat hread]
      split
      · exact ih
      · rename_i hmem
        refine List.nodup_append.2 ⟨ih, List.nodup_singleton uri, fun other hother uri' huri' => ?_⟩
        rw [List.mem_singleton.1 huri']
        exact ne_of_mem_of_not_mem hother hmem

/-- The documents that ever were programs, the `addresses`, are those that have a `latest?` one. -/
theorem mem_addresses_iff : uri ∈ addresses nesting h ↔ (latest? nesting h uri).isSome := by
  rw [mem_addresses, latest?, Option.isSome_iff_ne_none, ne_eq, List.lookup_eq_none_iff]
  simp

/-- The last program of a document was read from a text of the history. -/
theorem exists_of_latest? {p : Program} (hp : latest? nesting h uri = some p) :
    ∃ text tokens, (uri, text) ∈ h ∧ Program.ofSource nesting text = .ok (tokens, p) := by
  obtain ⟨before, behind, hsplit, -⟩ := List.lookup_eq_some_iff.1 hp
  have hmem : (uri, p) ∈ programs nesting h := by
    rw [← List.mem_reverse, hsplit]
    simp
  obtain ⟨⟨uri', text⟩, htext, hread⟩ := List.mem_filterMap.1 hmem
  cases hsource : Program.ofSource nesting text with
  | error e => simp [hsource, Except.toOption] at hread
  | ok read =>
    simp only [hsource, Except.toOption, Option.map_some, Option.some.injEq,
      Prod.mk.injEq] at hread
    obtain ⟨rfl, rfl⟩ := hread
    exact ⟨text, read.1, htext, hsource⟩

end History

/-! ## Symbols, each once -/

/-- The position of the declaration of a symbol. -/
def Symbol.position (s : Symbol) : Position :=
  ⟨s.line + 1, s.column + 1⟩

theorem Symbol.DeclaredBy.stands {uri : String} {s : Symbol} {st : Stmt} (h : s.DeclaredBy uri st) :
    s.uri = uri ∧ s.position = st.position := by
  cases h <;> simp [position, Stmt.position]

/-- The `symbols` of a program stand where its statements stand. -/
theorem positions_symbols_sublist (uri : String) (p : Program) :
    ((symbols uri p).map Symbol.position).Sublist (p.map Stmt.position) := by
  induction p with
  | nil => exact .refl _
  | cons st rest ih =>
    have hrest : ((rest.filterMap (Symbol.ofStatement? uri)).map Symbol.position).Sublist
        (rest.map Stmt.position) := ih
    rw [symbols, List.filterMap_cons, List.map_cons]
    split
    · exact hrest.cons _
    · rename_i s hs
      rw [List.map_cons, (Symbol.ofStatement?_eq_some_iff.1 hs).stands.2]
      exact hrest.cons_cons _

/-- A program has each of its symbols once, as no two of its statements stand in the same place. -/
theorem symbols_nodup {nesting : Nat} {text : String} {tokens : List Token} {p : Program}
    (hread : Program.ofSource nesting text = .ok (tokens, p)) (uri : String) :
    (symbols uri p).Nodup := by
  obtain ⟨htokens, hp⟩ := Program.ofSource_eq_ok.1 hread
  have hstatements : (p.map Stmt.position).Nodup :=
    (tokenize_positions htokens).sublist (Program.positions_sublist hp)
  exact (hstatements.sublist (positions_symbols_sublist uri p)).of_map Symbol.position

theorem History.symbolsOf_nodup (nesting : Nat) (h : History) (uri : String) :
    (symbolsOf nesting h uri).Nodup := by
  unfold symbolsOf
  cases hp : latest? nesting h uri with
  | none => exact List.nodup_nil
  | some p =>
    obtain ⟨text, tokens, -, hread⟩ := exists_of_latest? hp
    exact symbols_nodup hread uri

theorem History.uri_of_mem_symbolsOf {nesting : Nat} {h : History} {uri : String} {s : Symbol}
    (hs : s ∈ symbolsOf nesting h uri) : s.uri = uri := by
  unfold symbolsOf at hs
  cases hp : latest? nesting h uri with
  | none => simp [hp] at hs
  | some p =>
    rw [hp] at hs
    obtain ⟨st, -, hdeclared⟩ := mem_symbols.1 hs
    exact hdeclared.stands.1

/-- Every symbol with a name is found once. -/
theorem History.named_nodup (nesting : Nat) (h : History) (name : String) :
    (named nesting h name).Nodup := by
  refine List.Nodup.filter _ (List.nodup_flatMap.2 ⟨fun uri _ => symbolsOf_nodup nesting h uri, ?_⟩)
  refine (addresses_nodup nesting h).imp fun hne s hs hs' => hne ?_
  exact (uri_of_mem_symbolsOf hs).symm.trans (uri_of_mem_symbolsOf hs')

/-! ## The index behind a history -/

namespace Index

/-- The index `i` with one more text taken in, where that is possible. -/
def taken (nesting : Nat) (i : Index) (e : String × String) : Index :=
  ((i.update? nesting e.1 e.2).map Prod.fst).getD i

/-- Whether the index `i` holds what the history `h` of texts calls for. -/
structure Records (nesting : Nat) (h : History) (i : Index) : Prop where
  documents : i.documents =
    (h.addresses nesting).map fun uri => (uri, h.symbolsOf nesting uri)
  byName : i.byName = i.all.foldl filed []

namespace Records

variable {nesting : Nat} {h : History} {i : Index}

theorem empty (nesting : Nat) : Index.empty.Records nesting [] :=
  ⟨rfl, rfl⟩

/-- Whatever text the index takes in, it `Records` what the history calls for that has the text
    too. -/
theorem taken (hi : i.Records nesting h) (e : String × String) :
    (i.taken nesting e).Records nesting (h ++ [e]) := by
  obtain ⟨uri, text⟩ := e
  cases hread : Program.ofSource nesting text with
  | error e =>
    have hsame : i.taken nesting (uri, text) = i := by
      cases e <;> simp [Index.taken, update?, hread]
    rw [hsame]
    constructor
    · rw [hi.documents]
      simp only [History.addresses, History.symbolsOf, History.latest?,
        History.programs_concat_of_error hread]
    · exact hi.byName
  | ok read =>
    obtain ⟨tokens, p⟩ := read
    have hput : i.taken nesting (uri, text) = i.put uri (symbols uri p) := by
      simp [Index.taken, update?, hread]
    rw [hput]
    refine ⟨?_, rfl⟩
    rw [documents_put, hi.documents, Bindings.put_map (History.addresses_nodup nesting h),
      History.addresses_concat hread]
    exact List.map_congr_left fun other _ => by rw [History.symbolsOf_concat other hread]

/-- The same of any number of texts, `more`. -/
theorem foldl_taken (hi : i.Records nesting h) (more : History) :
    (more.foldl (Index.taken nesting) i).Records nesting (h ++ more) := by
  induction more generalizing h i with
  | nil => simpa using hi
  | cons e more ih => simpa using ih (hi.taken e)

/-- The symbols of a document in the index are those of the last program that it was. -/
theorem find?_documents (hi : i.Records nesting h) (uri : String) :
    i.documents.find? uri = (h.latest? nesting uri).map (symbols uri) := by
  rw [hi.documents, Bindings.find?_map]
  by_cases hmem : uri ∈ h.addresses nesting
  · rw [if_pos hmem]
    obtain ⟨p, hp⟩ := Option.isSome_iff_exists.1 (History.mem_addresses_iff.1 hmem)
    simp [History.symbolsOf, hp]
  · rw [if_neg hmem]
    rw [History.mem_addresses_iff, Bool.not_eq_true, Option.isSome_eq_false_iff,
      Option.isNone_iff_eq_none] at hmem
    simp [hmem]

theorem all_eq (hi : i.Records nesting h) :
    i.all = (h.addresses nesting).flatMap (h.symbolsOf nesting) := by
  rw [all, hi.documents, List.flatMap_map]

/-- The symbols with a name in the index are those of all documents, and a name without any is in no
    table. -/
theorem find?_byName (hi : i.Records nesting h) (name : String) :
    i.byName.find? name =
      if h.named nesting name = [] then none else some (h.named nesting name) := by
  rw [hi.byName, find?_foldl_filed, hi.all_eq, ← History.named]
  rfl

theorem named_eq (hi : i.Records nesting h) (name : String) :
    i.named name = h.named nesting name := by
  rw [Index.named, hi.find?_byName name]
  split <;> simp_all

end Records

end Index

end Editor

end Scripting
