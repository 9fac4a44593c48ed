import Scripting.Proofs.CommandLine.Transcript

set_option autoImplicit false

/-! # A session is a script

The script that is made of the accepted texts of a session, its `sources`, with line feeds between
them, spells the programs of these texts one behind the other. To run it is to play the `turns` of
the session, if none of the programs asks for input or raises a fault. -/

namespace Scripting

/-! ## Texts put together -/

/-- The programs that the `texts` spell, as far as they spell some. -/
def Program.ofSources (depth : Nat) (texts : List String) : List Program :=
  texts.filterMap fun text => (ofSource depth text).toOption.map Prod.snd

theorem Program.unplaced_append (p q : Program) :
    unplaced (p ++ q) = p.unplaced ++ q.unplaced :=
  List.map_append

theorem Program.unplaced_placed (f : Placing) (p : Program) :
    (p.placed f).unplaced = p.unplaced := by
  unfold unplaced placed
  rw [List.map_map]
  exact List.map_congr_left fun s _ => s.unplaced_placed f

theorem Program.ofSources_cons {depth : Nat} {text : String} {texts : List String}
    {tokens : List Token} {p : Program} (h : ofSource depth text = .ok (tokens, p)) :
    ofSources depth (text :: texts) = p :: ofSources depth texts := by
  simp [ofSources, h, Except.toOption]

/-- The `texts` with line feeds between them spell the programs of the texts, one behind the
    other. -/
theorem Program.exists_ofSource_intercalate {depth : Nat} {texts : List String}
    (h : ∀ text ∈ texts, ∃ r, ofSource depth text = .ok r) :
    ∃ tokens p, ofSource depth (String.intercalate "\n" texts) = .ok (tokens, p) ∧
      p.unplaced = unplaced (ofSources depth texts).flatten := by
  induction texts with
  | nil =>
    refine ⟨?_, [], ?read, rfl⟩
    case read =>
      show ofSource depth "" = _
      cbv
      rfl
  | cons text texts ih =>
    obtain ⟨⟨tokens, p⟩, hread⟩ := h text List.mem_cons_self
    obtain ⟨_, q, hrest, hq⟩ := ih fun other hother => h other (List.mem_cons_of_mem _ hother)
    rw [ofSources_cons hread, List.flatten_cons, unplaced_append, ← hq]
    cases texts with
    | nil =>
      have hnone : q.unplaced = [] := hq
      exact ⟨tokens, p, by simpa using hread, by rw [hnone, List.append_nil]⟩
    | cons next texts =>
      obtain ⟨all, hboth⟩ := ofSource_append_lineFeed hread hrest
      rw [String.intercalate_cons_cons]
      exact ⟨all, _, hboth, by rw [unplaced_append, unplaced_placed]⟩

section Append

variable {limits : Limits} {scope : Nat} {m : Machine} {p : Program}

/-- The program `q` behind one that is not stopped. -/
theorem Program.run_append_of_none (q : Program) (h : (p.run limits scope).stop? m = none) :
    ((p ++ q : Program).run limits scope).leaves m =
        (q.run limits scope).leaves ((p.run limits scope).leaves m) ∧
      ((p ++ q : Program).run limits scope).stop? m =
        (q.run limits scope).stop? ((p.run limits scope).leaves m) := by
  unfold Run.leaves Run.stop? at *
  rw [run_append, EStateM.run_bind]
  revert h
  cases (p.run limits scope).run m <;> intro h
  · exact ⟨rfl, rfl⟩
  · cases h

/-- The program `q` behind one that is stopped does not matter. -/
theorem Program.run_append_of_ne_none (q : Program) (h : (p.run limits scope).stop? m ≠ none) :
    ((p ++ q : Program).run limits scope).leaves m = (p.run limits scope).leaves m ∧
      ((p ++ q : Program).run limits scope).stop? m = (p.run limits scope).stop? m := by
  unfold Run.leaves Run.stop? at *
  rw [run_append, EStateM.run_bind]
  revert h
  cases (p.run limits scope).run m <;> intro h
  · exact absurd rfl h
  · exact ⟨rfl, rfl⟩

end Append

namespace CommandLine

/-- A program that is the programs of texts, as `hp` says, begins with that of the first. -/
theorem exists_append_of_sources {nesting : Nat} {prompt source : String} {ts : List Turn}
    {tokens : List Token} {p q : Program}
    (hread : Program.ofSource nesting source = .ok (tokens, q)) (hp : p.unplaced = Program.unplaced
      (Program.ofSources nesting (sources (⟨prompt, some source⟩ :: ts))).flatten) :
    ∃ p₁ p₂, p = p₁ ++ p₂ ∧ p₁.unplaced = q.unplaced ∧
      p₂.unplaced = Program.unplaced (Program.ofSources nesting (sources ts)).flatten := by
  have hsources : sources (⟨prompt, some source⟩ :: ts) = source :: sources ts := rfl
  rw [hsources, Program.ofSources_cons hread, List.flatten_cons, Program.unplaced_append] at hp
  obtain ⟨p₁, p₂, rfl, hp₁, hp₂⟩ := List.map_eq_append_iff.1 hp
  exact ⟨p₁, p₂, rfl, hp₁, hp₂⟩

theorem exists_ofSource_of_mem_sources {nesting : Nat} {gathered : List String}
    {lines : List (List Char)} {text : String}
    (h : text ∈ sources (turns nesting gathered lines)) :
    ∃ r, Program.ofSource nesting text = .ok r := by
  induction lines generalizing gathered with
  | nil => simp [turns, sources] at h
  | cons line more ih =>
    unfold turns at h
    split at h
    · simp [sources] at h
    dsimp only at h
    split at h
    · rename_i r hread
      simp only [sources, List.filterMap_cons, List.mem_cons] at h
      rcases h with rfl | h
      · exact ⟨r, hread⟩
      · exact ih h
    · simp [sources] at h
    · exact ih h

/-- An accepted text, `source`, that reads no input and is not stopped is played by running it. -/
theorem Plays.interprets {limits : Limits} {m m' : Machine} {ts : List Turn} {texts : List String}
    {stop : Option Stop} {source text : String} (prompt : String)
    (hread : (Program.ofSource limits.nesting source).isOk = true)
    (hasks : (interpret limits source).stop? m.withoutInput = none)
    (hstop : (interpret limits source).stop? m = none)
    (htext : m.Writes text ((interpret limits source).leaves m))
    (h : Plays limits ((interpret limits source).leaves m) ts texts m' stop) :
    Plays limits m (⟨prompt, some source⟩ :: ts) (text :: texts) m' stop := by
  obtain ⟨tokens, p, hp⟩ := Program.exists_of_isOk_ofSource hread
  rw [interpret_of_ofSource hp] at hasks hstop htext h
  have hquiet : p.Quiet limits m := ⟨by simp [Run.AsksInput, hasks], by simp [hstop]⟩
  exact .runs prompt hp hquiet hstop htext h

/-- What turns do is determined: if `ts` are played to their end, no turns at the beginning of `ts`
    are stopped, and `ts` are played in no other way. -/
theorem Plays.unique_of_prefix {limits : Limits} {m m₁ m₂ : Machine} {ts taken : List Turn}
    {texts₁ texts₂ : List String} {stop : Option Stop} (h : Plays limits m ts texts₁ m₁ none)
    (h' : Plays limits m taken texts₂ m₂ stop) (htaken : taken <+: ts) :
    stop = none ∧ (taken = ts → texts₂ = texts₁ ∧ m₂ = m₁) := by
  induction h' generalizing ts texts₁ with
  | done m =>
    refine ⟨rfl, ?_⟩
    rintro rfl
    cases h
    exact ⟨rfl, rfl⟩
  | idle prompt _ ih =>
    obtain ⟨ts, rfl, hmore⟩ := List.cons_prefix_iff.1 htaken
    cases h with
    | idle _ h =>
      obtain ⟨hstop, hsame⟩ := ih h hmore
      refine ⟨hstop, fun hall => ?_⟩
      obtain ⟨rfl, rfl⟩ := hsame (List.cons.inj hall).2
      exact ⟨rfl, rfl⟩
  | runs prompt hread hquiet hnone htext _ ih =>
    obtain ⟨ts, rfl, hmore⟩ := List.cons_prefix_iff.1 htaken
    cases h with
    | runs _ hread' _ _ htext' h =>
      cases hread.symm.trans hread'
      obtain ⟨hstop, hsame⟩ := ih h hmore
      refine ⟨hstop, fun hall => ?_⟩
      obtain ⟨rfl, rfl⟩ := hsame (List.cons.inj hall).2
      exact ⟨by rw [htext.unique htext'], rfl⟩
  | stops prompt hread hquiet hsome htext =>
    obtain ⟨ts, rfl, -⟩ := List.cons_prefix_iff.1 htaken
    cases h with
    | runs _ hread' _ hnone _ _ =>
      cases hread.symm.trans hread'
      cases hsome.symm.trans hnone

/-! ## What a script does -/

/-- The programs of the turns `ts`, one behind the other, do what the turns do. -/
theorem Plays.run {limits : Limits} {m m' : Machine} {ts : List Turn} {texts : List String}
    {stop : Option Stop} (h : Plays limits m ts texts m' stop) {p : Program} {c : Machine}
    (hm : m.SameState c)
    (hp : p.unplaced = Program.unplaced (Program.ofSources limits.nesting (sources ts)).flatten) :
    m'.SameState ((p.run limits Machine.globals).leaves c) ∧
      c.Writes (String.join texts) ((p.run limits Machine.globals).leaves c) ∧
      Option.Rel Stop.SameButPlace stop ((p.run limits Machine.globals).stop? c) := by
  induction h generalizing p c with
  | done m =>
    obtain rfl : p = [] := List.map_eq_nil_iff.1 hp
    exact ⟨hm, ⟨String.append_empty.symm, rfl, rfl⟩, .none⟩
  | idle prompt _ ih =>
    rw [String.join_cons, String.empty_append]
    exact ih hm hp
  | @runs m m' ts texts stop source text tokens q prompt hread hquiet hstop htext _ ih =>
    obtain ⟨p₁, p₂, rfl, hp₁, hp₂⟩ := exists_append_of_sources hread hp
    have halike := Program.run_doAlike hp₁.symm hm hquiet.asks
    obtain ⟨text', hwrites, hwrites'⟩ := halike.writes
    obtain rfl := htext.unique hwrites
    have hnone : (p₁.run limits Machine.globals).stop? c = none :=
      Stop.eq_none_of_rel (hstop ▸ halike.stop)
    obtain ⟨hleaves, hstops⟩ := Program.run_append_of_none p₂ hnone
    obtain ⟨hstate, hrest, hlast⟩ := ih halike.state hp₂
    rw [hleaves, hstops, String.join_cons]
    exact ⟨hstate, hwrites'.trans hrest, hlast⟩
  | @stops m source text tokens q e prompt hread hquiet hstop htext =>
    obtain ⟨p₁, p₂, rfl, hp₁, -⟩ := exists_append_of_sources hread hp
    have halike := Program.run_doAlike hp₁.symm hm hquiet.asks
    obtain ⟨text', hwrites, hwrites'⟩ := halike.writes
    obtain rfl := htext.unique hwrites
    have hrel := halike.stop
    rw [hstop] at hrel
    have hsome : (p₁.run limits Machine.globals).stop? c ≠ none := by
      intro hnone
      rw [hnone] at hrel
      cases hrel
    obtain ⟨hleaves, hstops⟩ := Program.run_append_of_ne_none p₂ hsome
    rw [hleaves, hstops, String.join_cons, String.join_nil, String.append_empty]
    exact ⟨halike.state, hwrites', hrel⟩

/-- A script that spells the program `p` leaves the machine that the program leaves, and succeeds if
    the program is not stopped. -/
theorem runSource_of_ok {limits : Limits} {source : String} {tokens : List Token} {p : Program}
    (h : Program.ofSource limits.nesting source = .ok (tokens, p)) (name : String) (c : Console) :
    ((p.run limits Machine.globals).leaves c.machine).SameState
        (runSource limits name source c).1.machine ∧
      ((p.run limits Machine.globals).leaves c.machine).Writes ""
        (runSource limits name source c).1.machine ∧
      ((p.run limits Machine.globals).stop? c.machine = none →
        (runSource limits name source c).2 = success) := by
  have hmachine := c.machine_foldl_trace (readNote name p :: dump tokens p)
  unfold runSource
  simp only [h, Console.run_eq, hmachine]
  generalize (readNote name p :: dump tokens p).foldl Console.trace c = traced
  let left : Console := { traced with machine := (p.run limits Machine.globals).leaves c.machine }
  have hstate := left.sameState_flushJournal
  have hwrites := left.writes_flushJournal
  cases (p.run limits Machine.globals).stop? c.machine with
  | none => exact ⟨hstate, hwrites, fun _ => rfl⟩
  | some e => cases e <;> exact ⟨hstate, hwrites, fun hnone => nomatch hnone⟩

/-- Whether a session, begun on the console `c`, does what a script does that is made of the
    accepted texts and run on `c'`. The programs of these texts are run once each and in order, what
    the session shows behind its prompts is what the script writes, and both leave the machine in
    the state in which the programs leave it. All `turns` of the session are taken, and the script
    goes through to its end, unless one of the programs is stopped. -/
def Console.EquivalentTo (limits : Limits) (c c' : Console) (name : String) : Prop :=
  let session := (runInteractive limits c).1.machine
  let script (ts : List Turn) :=
    runSource limits name (String.intercalate "\n" (sources ts)) c'
  ∃ taken texts m stop, taken <+: turns limits.nesting [] (Text.lines c.machine.input) ∧
    Plays limits (Machine.fresh []) taken texts m stop ∧
    (m.SameState session ∧ ∃ closing ∈ closings,
      session.output = c.machine.output ++ banner ++ shown taken texts ++ closing) ∧
    (m.SameState (script taken).1.machine ∧
      (script taken).1.machine.output = c'.machine.output ++ String.join texts) ∧
    (stop = none → taken = turns limits.nesting [] (Text.lines c.machine.input) ∧
      (script taken).2 = success)

/-- A session that is `Quiet`, as its programs ask for no input and raise no fault, does what the
    script does. -/
theorem Console.equivalentTo_of_quiet {limits : Limits} {c c' : Console}
    (hc : (Machine.fresh []).SameState c.machine) (hc' : (Machine.fresh []).SameState c'.machine)
    (hquiet : Interactive.Quiet limits ⟨c.write banner, []⟩) (name : String) :
    c.EquivalentTo limits c' name := by
  have hstart : (Machine.fresh []).SameState (c.write banner).machine := ⟨hc.scopes, hc.functions⟩
  have hrounds : (Interactive.turns limits ⟨c.write banner, []⟩).length ≤
      c.machine.input.length + 1 :=
    (length_turns_le ..).trans (Nat.succ_le_succ (Text.length_lines_le _))
  obtain ⟨taken, texts, m, stop, htaken, hall, hplays, hstate, hshown⟩ :=
    Interactive.shows_of_quiet hquiet hstart hrounds
  have haccepted : ∀ text ∈ sources taken, ∃ r, Program.ofSource limits.nesting text = .ok r :=
    fun text htext => exists_ofSource_of_mem_sources ((htaken.sublist.filterMap _).subset htext)
  obtain ⟨tokens, p, hread, hp⟩ := Program.exists_ofSource_intercalate haccepted
  obtain ⟨hrun, hwrites, hstop⟩ := hplays.run hc' hp
  obtain ⟨hleft, hwritten, hsuccess⟩ := runSource_of_ok hread name c'
  refine ⟨taken, texts, m, stop, htaken, hplays, ⟨hstate, hshown⟩, ⟨hrun.trans hleft, ?_⟩, ?_⟩
  · have hwhole := hwrites.trans hwritten
    rw [String.append_empty] at hwhole
    exact hwhole.output
  · rintro rfl
    exact ⟨hall rfl, hsuccess (Stop.eq_none_of_rel hstop)⟩

/-- The turns of five lines: a variable is declared in two of them, the third is refused, the fourth
    prints the variable, and the fifth is left unfinished. -/
def declaredTurns : List Turn :=
  [⟨">>> ", none⟩, ⟨"... ", some "let x = (\nnil);"⟩, ⟨">>> ", none⟩, ⟨">>> ", some "print x;"⟩,
    ⟨">>> ", none⟩, ⟨"... ", none⟩]

theorem turns_eq_declaredTurns :
    turns 8 [] (Text.lines "let x = (\nnil);\n)\nprint x;\n(".toList) = declaredTurns := by
  cbv

theorem exists_plays_declaredTurns : ∃ m, m.scopes.get? Machine.globals "x" = some .nil ∧
    Plays ⟨8, 8, 8⟩ (Machine.fresh []) declaredTurns ["", "", "", "nil\n", "", ""] m none :=
  ⟨_, by cbv, .idle _ (.interprets _ (by cbv) (by cbv) (by cbv) ⟨by cbv, by cbv, by cbv⟩
    (.idle _ (.interprets _ (by cbv) (by cbv) (by cbv) ⟨by cbv, by cbv, by cbv⟩
      (.idle _ (.idle _ (.done _))))))⟩

/-- The session of `declaredTurns` and the script of its two accepted texts both print `nil`, once,
    and leave the variable at `nil`. -/
theorem Console.equivalentTo_of_quiet_declaration :
    let c := Console.start false "let x = (\nnil);\n)\nprint x;\n(".toList .closed
    let c' := Console.start true [] .interrupts
    let session := (runInteractive ⟨8, 8, 8⟩ c).1.machine
    let script := (runSource ⟨8, 8, 8⟩ "script" "let x = (\nnil);\nprint x;" c').1.machine
    Interactive.Quiet ⟨8, 8, 8⟩ ⟨c.write banner, []⟩ ∧ c.EquivalentTo ⟨8, 8, 8⟩ c' "script" ∧
      sources (turns 8 [] (Text.lines c.machine.input)) = ["let x = (\nnil);", "print x;"] ∧
      (∃ closing ∈ closings,
        session.output = banner ++ ">>> ... >>> >>> nil\n>>> ... " ++ closing) ∧
      script.output = "nil\n" ∧
      session.scopes.get? Machine.globals "x" = some .nil ∧
      script.scopes.get? Machine.globals "x" = some .nil := by
  intro c c' session script
  have hturns : turns 8 [] (Text.lines c.machine.input) = declaredTurns := turns_eq_declaredTurns
  have hquiet : Interactive.Quiet ⟨8, 8, 8⟩ ⟨c.write banner, []⟩ :=
    Interactive.quiet_of_quietTurns (m := Machine.fresh []) hturns (by cbv) ⟨rfl, rfl⟩
  have hequiv : c.EquivalentTo ⟨8, 8, 8⟩ c' "script" :=
    Console.equivalentTo_of_quiet ⟨rfl, rfl⟩ ⟨rfl, rfl⟩ hquiet _
  refine ⟨hquiet, hequiv, by rw [hturns]; rfl, ?_⟩
  obtain ⟨m, hvalue, hplays⟩ := exists_plays_declaredTurns
  obtain ⟨taken, texts, m', stop, htaken, htakes, ⟨hsession, closing, hclosing, hshown⟩,
    ⟨hscript, hwritten⟩, hall⟩ := hequiv
  rw [hturns] at htaken hall
  obtain ⟨rfl, hlast⟩ := hplays.unique_of_prefix htakes htaken
  obtain ⟨rfl, -⟩ := hall rfl
  obtain ⟨rfl, rfl⟩ := hlast rfl
  exact ⟨⟨closing, hclosing, hshown⟩, hwritten, hsession.scopes ▸ hvalue, hscript.scopes ▸ hvalue⟩

end CommandLine

end Scripting
