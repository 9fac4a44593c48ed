import Scripting.Proofs.Evaluation.Keeping
import Scripting.Proofs.Session.Texts
import Scripting.Proofs.Text.Typed
import Scripting.Proofs.Token.Numerals

set_option autoImplicit false

/-! # What requests for input are answered with

A request for input, `Run.askLine`, is answered with the value of the next line. What value a line
has is told by the scan: it is a number just if the scan takes the line, apart from the blanks
around it, for a number. Over a whole run this makes the stream a table of answers. A run that
answers its requests from a table, by how many came before, is set beside the run that reads the
stream; the two stay in lockstep, so that it is always the next line that is read, whatever happens
between two requests. -/

namespace Scripting

/-! ## The first line of a stream -/

/-- Whether the stream `s` is a `line`, which ends behind the first line feed or where the stream
    does, and a `rest`. -/
def Text.FirstLine (s line rest : List Char) : Prop :=
  line ++ rest = s ∧ ((∃ body, '\n' ∉ body ∧ line = body ++ ['\n']) ∨ ('\n' ∉ line ∧ rest = []))

theorem Text.takeLine_firstLine (s : List Char) : FirstLine s (takeLine s).1 (takeLine s).2 := by
  refine ⟨takeLine_append s, ?_⟩
  induction s with
  | nil => exact .inr ⟨by simp [takeLine], rfl⟩
  | cons c s ih =>
    rw [takeLine_cons]
    by_cases hc : c = '\n'
    · exact .inl ⟨[], by simp, by simp [hc]⟩
    · rw [if_neg hc]
      rcases ih with ⟨body, hbody, hline⟩ | ⟨hline, hrest⟩
      · exact .inl ⟨c :: body, by simp [hbody, Ne.symm hc], by simp [hline]⟩
      · exact .inr ⟨by simp [hline, Ne.symm hc], hrest⟩

/-! ## The value of a line -/

/-- Whether a character is one of those that end a line. -/
def endsLine (c : Char) : Bool :=
  c = '\r' || c = '\n'

/-- Whether the value `v` is the one of a `line`: the number for which the scan takes the line
    without the blanks around it, or else the line, from whose end only what ends a line is taken
    off. -/
structure Value.Decodes (line : List Char) (v : Value) : Prop where
  number : ∀ x, v = .num x ↔ ScansAsNumber (Text.trim line) x
  string : (∃ x, v = .num x) ∨ ∃ text ends, line = text ++ ends ∧ (∀ c ∈ ends, endsLine c = true) ∧
    (∀ c ∈ text.getLast?, endsLine c = false) ∧ v = .str (String.ofList text)

namespace Text

variable {p q : Char → Bool} {s : List Char}

theorem dropEndWhile_append_singleton (s : List Char) (c : Char) :
    dropEndWhile p (s ++ [c]) = if p c then dropEndWhile p s else s ++ [c] := by
  unfold dropEndWhile
  rw [List.reverse_append, List.reverse_singleton, List.singleton_append, List.dropWhile_cons]
  split <;> simp

/-- What `dropEndWhile` drops at the end of a text, and what is left. -/
theorem exists_dropEndWhile (p : Char → Bool) (s : List Char) :
    ∃ ends, s = dropEndWhile p s ++ ends ∧ (∀ c ∈ ends, p c = true) ∧
      ∀ c ∈ (dropEndWhile p s).getLast?, p c = false := by
  induction s using List.reverseRecOn with
  | nil => exact ⟨[], rfl, by simp, by simp [dropEndWhile]⟩
  | append_singleton s c ih =>
    rw [dropEndWhile_append_singleton]
    by_cases hc : p c = true
    · obtain ⟨ends, hs, hends, hlast⟩ := ih
      rw [if_pos hc]
      refine ⟨ends ++ [c], by rw [← List.append_assoc, ← hs], fun d hd => ?_, hlast⟩
      rcases List.mem_append.1 hd with hd | hd
      · exact hends d hd
      · rwa [List.mem_singleton.1 hd]
    · rw [if_neg hc]
      exact ⟨[], by simp, by simp, by simpa using hc⟩

theorem dropEndWhile_eq_self (h : ∀ c ∈ s, p c = false) :
    dropEndWhile p s = s := by
  cases s using List.reverseRecOn with
  | nil => rfl
  | append_singleton s c => rw [dropEndWhile_append_singleton, h c (by simp)]; rfl

theorem trimWhile_eq_self (h : ∀ c ∈ s, p c = false) :
    trimWhile p s = s := by
  have hfront : s.dropWhile p = s := by
    cases s with
    | nil => rfl
    | cons c s => rw [List.dropWhile_cons, h c (by simp)]; rfl
  rw [trimWhile, hfront, dropEndWhile_eq_self h]

/-- Trimming by `p` takes off what has been dropped at the end anyway. -/
theorem trimWhile_dropEndWhile (h : ∀ c, q c = true → p c = true) (s : List Char) :
    trimWhile p (dropEndWhile q s) = trimWhile p s := by
  induction s using List.reverseRecOn with
  | nil => rfl
  | append_singleton s c ih =>
    rw [dropEndWhile_append_singleton]
    by_cases hc : q c = true
    · rw [if_pos hc, ih]
      unfold trimWhile
      rw [List.dropWhile_append]
      split
      · rename_i hnil
        rw [List.isEmpty_iff.1 hnil, List.dropWhile_cons_of_pos (h c hc), List.dropWhile_nil]
      · rw [dropEndWhile_append_singleton, if_pos (h c hc)]
    · rw [if_neg hc]

end Text

theorem isBlank_of_endsLine (c : Char) (h : endsLine c = true) : Text.isBlank c = true := by
  refine Text.isBlank_of_isWhiteSpace (Text.isWhiteSpace_of_mem ?_)
  simp only [endsLine, Bool.or_eq_true, decide_eq_true_eq] at h
  rcases h with rfl | rfl <;> simp

theorem isBlank_of_isDigit {c : Char} (h : c.isDigit = true) : Text.isBlank c = false := by
  have hrange : 48 ≤ c.toNat ∧ c.toNat ≤ 57 := by
    simpa [Char.isDigit, UInt32.le_iff_toNat_le] using h
  simp only [Text.isBlank, Text.isWhiteSpace, Text.isSeparator, Text.whiteSpaceRanges,
    Text.separatorRanges, Text.Ranges.contains, List.any_cons, List.any_nil, Bool.or_eq_false_iff,
    Bool.and_eq_false_iff, decide_eq_false_iff_not, and_true]
  omega

/-- A line has the value that `inputValue` gives it, by the scan. -/
theorem inputValue_decodes (line : List Char) : (inputValue line).Decodes line := by
  have htrim : Text.trim (Text.dropEndWhile endsLine line) = Text.trim line :=
    Text.trimWhile_dropEndWhile isBlank_of_endsLine line
  have hends : (fun c => decide (c = '\r') || decide (c = '\n')) = endsLine := rfl
  unfold inputValue
  simp only [hends, htrim]
  cases hparsed : Number.parse? (Text.trim line) with
  | some x =>
    refine ⟨fun y => ?_, .inl ⟨x, rfl⟩⟩
    rw [scansAsNumber_iff, hparsed, Value.num.injEq, Option.some.injEq]
  | none =>
    refine ⟨fun y => ?_, .inr ?_⟩
    · rw [scansAsNumber_iff, hparsed]
      simp
    · obtain ⟨ends, hline, hall, hlast⟩ := Text.exists_dropEndWhile endsLine line
      exact ⟨_, ends, hline, hall, hlast, rfl⟩

theorem Value.Decodes.ne_nil {line : List Char} {v : Value} (h : v.Decodes line) : v ≠ .nil := by
  rintro rfl
  rcases h.string with ⟨x, hx⟩ | ⟨text, ends, -, -, -, htext⟩
  · cases hx
  · cases htext

/-- The line feed of a line is no part of its value. -/
theorem inputValue_append_lineFeed (line : List Char) :
    inputValue (line ++ ['\n']) = inputValue line := by
  have hdrop : Text.dropEndWhile endsLine (line ++ ['\n']) = Text.dropEndWhile endsLine line :=
    Text.dropEndWhile_append_singleton line '\n'
  unfold inputValue
  rw [show (fun c => decide (c = '\r') || decide (c = '\n')) = endsLine from rfl, hdrop]

theorem inputValue_withoutLineFeed (line : List Char) :
    inputValue (Text.withoutLineFeed line) = inputValue line := by
  unfold Text.withoutLineFeed
  split
  · rename_i hlast
    obtain ⟨body, rfl⟩ := List.getLast?_eq_some_iff.1 hlast
    rw [List.dropLast_concat, inputValue_append_lineFeed]
  · rfl

/-- An empty line is an empty text. -/
example : inputValue ['\n'] = .str "" := by decide

/-! ## One request -/

/-- What `askLine` comes to on a machine that has text left. -/
theorem askLine_of_ne_nil {m : Machine} (h : m.input ≠ []) :
    Run.askLine.run m = .ok (inputValue (Text.takeLine m.input).1)
      { m with output := m.output ++ inputPrompt, input := (Text.takeLine m.input).2 } := by
  have hline : (Text.takeLine m.input).1.isEmpty = false := by
    rw [List.isEmpty_eq_false_iff]
    exact fun hnil => h (Text.takeLine_fst_eq_nil_iff.1 hnil)
  simp only [Run.askLine, Run.write, Run.readLine, EStateM.run_bind, EStateM.run_modify,
    EStateM.run_get, EStateM.run_set, EStateM.run_pure, hline, Bool.false_and, Bool.false_eq_true,
    if_false]

theorem askLine_of_closed {m : Machine} (h : m.input = []) (hend : m.inputEnd = .closed) :
    Run.askLine.run m = .ok .nil { m with output := m.output ++ inputPrompt } := by
  obtain ⟨scopes, functions, input, inputEnd, output, journal⟩ := m
  subst h hend
  rfl

theorem askLine_of_interrupts {m : Machine} (h : m.input = []) (hend : m.inputEnd = .interrupts) :
    Run.askLine.run m = .error .interrupted { m with output := m.output ++ inputPrompt } := by
  obtain ⟨scopes, functions, input, inputEnd, output, journal⟩ := m
  subst h hend
  rfl

/-- A call of `Builtin.input` asks for input once, at every level of a run. -/
theorem call_input (rounds depth : Nat) (p : Position) :
    (engine rounds depth).call (.builtin .input) [] p = Run.askLine := by
  cases depth <;> rfl

/-! ## Answers from a table -/

/-- Answer a request for input by how many have been answered before; the input of such a run keeps
    count of them, with one line feed for each. Where the table `answers` has no answer, the run is
    broken off. -/
def Run.answer (answers : Nat → Option Value) : Run Value := do
  Run.write inputPrompt
  let m ← get
  match answers m.input.length with
  | some value =>
    set { m with input := '\n' :: m.input }
    return value
  | none => throw .interrupted

/-- Call a value, where requests for input are answered from the table `answers`. -/
def Run.callAnswered (answers : Nat → Option Value) (execute : Nat → Stmt → Run Signal)
    (callee : Value) (arguments : List Value) (p : Position) : Run Value :=
  match callee, arguments with
  | .builtin .input, [] => Run.answer answers
  | callee, arguments => Run.call (fun signal => return signal.result) execute callee arguments p

/-- The means of a run with room for `depth` levels, in which requests for input are answered from
    the table `answers`. -/
def Engine.answering (answers : Nat → Option Value) (rounds : Nat) : Nat → Engine
  | 0 =>
    { evaluate := fun _ _ => throw .exhausted
      execute := fun _ _ => throw .exhausted
      call := Run.callAnswered answers fun _ _ => throw .exhausted }
  | depth + 1 =>
    { evaluate := fun scope e => e.evaluateBy (answering answers rounds depth) scope
      execute := fun scope s => s.executeBy (answering answers rounds depth) rounds scope
      call := Run.callAnswered answers fun scope s =>
        s.executeBy (answering answers rounds depth) rounds scope }

/-- The table of the stream `s`: the values of its lines, one after the other, and what comes behind
    the last, as `e` tells. -/
def answersOf (s : List Char) (e : InputEnd) (n : Nat) : Option Value :=
  match (Text.lines s)[n]?, e with
  | some line, _ => some (inputValue line)
  | none, .closed => some .nil
  | none, .interrupts => none

/-- The machine `m` with nothing to read, on which `n` requests have been answered. -/
def Machine.answered (m : Machine) (n : Nat) : Machine :=
  { m with input := List.replicate n '\n' }

/-! ## The two runs in lockstep -/

/-- A run that reads the stream `s`, and one whose requests are answered: nothing but what is left
    to read differs, and this tells how many requests there were. -/
def Simulation.answering (s : List Char) (e : InputEnd) : Simulation where
  literal v v' := v' = v
  point _ p p' := p' = p
  state m m' := m.inputEnd = e ∧ ∃ n, m.input = Text.dropLines n s ∧ m' = m.answered n
  stop e e' := e' = e
  number := id
  known _ _ := True
  visible _ := True
  own _ := True

namespace Simulation

variable {s : List Char} {e : InputEnd}

theorem answering_values {n : Nat} {v v' : Value} : (answering s e).Values n v v' ↔ v' = v :=
  ⟨fun h => by simpa [answering] using h.eq, fun h => ⟨trivial, by simp [h, answering]⟩⟩

theorem answering_steady : (answering s e).Steady where
  known_mono _ _ := trivial
  known_of_type _ _ := trivial
  number_inj _ _ h := h
  own_visible _ := trivial
  literal h _ := answering_values.2 h
  fault _ hp := by rw [show _ = _ from hp]; rfl
  stop _ := rfl
  get := by
    rintro m _ i name _ _ ⟨-, n, -, rfl⟩ - -
    show Option.Rel _ (m.scopes.get? i name) (m.scopes.get? i name)
    cases m.scopes.get? i name with
    | none => exact .none
    | some v => exact .some (answering_values.2 rfl)
  assign := by
    rintro m _ i v v' ⟨hend, n, hinput, rfl⟩ - hv name
    obtain rfl := answering_values.1 hv
    show Option.Rel _ (m.scopes.assign? i name v') (m.scopes.assign? i name v')
    cases m.scopes.assign? i name v' with
    | none => exact .none
    | some t => exact .some ⟨hend, n, hinput, rfl⟩
  define := by
    rintro m _ i v v' ⟨hend, n, hinput, rfl⟩ - hv name
    obtain rfl := answering_values.1 hv
    exact ⟨hend, n, hinput, rfl⟩
  child := by
    rintro m _ i ⟨hend, n, hinput, rfl⟩ -
    exact ⟨rfl, trivial, hend, n, hinput, rfl⟩
  keep := by
    rintro m _ f f' ⟨hend, n, hinput, rfl⟩ hf
    obtain rfl : f' = f := by
      simpa using hf.eq_placed (p := id) ⟨fun h => h, fun h => h⟩
    exact ⟨⟨hend, n, hinput, rfl⟩, answering_values.2 rfl⟩
  function := by
    rintro m _ id name ⟨-, n, -, rfl⟩ -
    exact ⟨rfl, rfl, Stmt.corresponds_self (fun _ => rfl) (fun _ _ => rfl) _, rfl, trivial⟩
  write := by
    rintro m _ ⟨hend, n, hinput, rfl⟩ text
    exact ⟨hend, n, hinput, rfl⟩
  record := by
    rintro m _ p p' ⟨hend, n, hinput, rfl⟩ hp entry -
    obtain rfl : p' = p := hp
    exact ⟨hend, n, hinput, rfl⟩

/-- The next line is the next answer in `answersOf`. -/
theorem answersOf_of_ne_nil {n : Nat} (h : Text.dropLines n s ≠ []) :
    answersOf s e n = some (inputValue (Text.takeLine (Text.dropLines n s)).1) := by
  have hlines := Text.lines_of_ne_nil h
  rw [Text.lines_dropLines] at hlines
  have hline : (Text.lines s)[n]? =
      some (Text.withoutLineFeed (Text.takeLine (Text.dropLines n s)).1) := by
    rw [← List.head?_drop, hlines, List.head?_cons]
  simp only [answersOf, hline, inputValue_withoutLineFeed]

theorem answersOf_of_nil {n : Nat} (h : Text.dropLines n s = []) :
    answersOf s e n = match e with
      | .closed => some .nil
      | .interrupts => none := by
  have hline : (Text.lines s)[n]? = none := by
    rw [← List.head?_drop, ← Text.lines_dropLines, h]
    rfl
  cases e <;> simp only [answersOf, hline]

end Simulation

theorem run_answer (answers : Nat → Option Value) (m : Machine) :
    (Run.answer answers).run m = match answers m.input.length with
      | some value =>
        .ok value { m with output := m.output ++ inputPrompt, input := '\n' :: m.input }
      | none => .error .interrupted { m with output := m.output ++ inputPrompt } := by
  simp only [Run.answer, Run.write, EStateM.run_bind, EStateM.run_modify, EStateM.run_get]
  cases answers m.input.length <;> rfl

section Answered

variable {s : List Char} {e : InputEnd} {n : Nat}

open Simulation

/-- A request that is answered from the stream, by `askLine`, and one that is answered from its
    table, by `answer`. -/
theorem answer_relates : (answering s e).Relates n (answering s e).Values Run.askLine
    (Run.answer (answersOf s e)) := by
  rintro m _ ⟨rfl, k, hinput, rfl⟩ hn
  have hcount : (m.answered k).input.length = k := List.length_replicate
  have hnext : Text.dropLines (k + 1) s = (Text.takeLine m.input).2 := by rw [hinput]; rfl
  rw [run_answer, hcount]
  by_cases hnil : m.input = []
  · have hleft : m.input = Text.dropLines (k + 1) s := by
      rw [hnext, hnil]
      rfl
    rw [answersOf_of_nil (hinput ▸ hnil)]
    cases hend : m.inputEnd with
    | closed =>
      rw [askLine_of_closed hnil hend]
      exact ⟨⟨hend, k + 1, hleft, rfl⟩, hn, answering_values.2 rfl⟩
    | interrupts =>
      rw [askLine_of_interrupts hnil hend]
      exact .inr ⟨⟨hend, k, hinput, rfl⟩, rfl⟩
  · rw [askLine_of_ne_nil hnil, answersOf_of_ne_nil (hinput ▸ hnil)]
    exact ⟨⟨rfl, k + 1, hnext.symm, rfl⟩, hn, answering_values.2 (by rw [hinput])⟩

/-- Only `Builtin.input` is called in another way. -/
theorem Run.callAnswered_eq_call {answers : Nat → Option Value}
    {execute : Nat → Stmt → Run Signal} {v : Value} {vs : List Value} {p : Position}
    (h : ¬(v = .builtin .input ∧ vs = [])) :
    callAnswered answers execute v vs p =
      call (fun signal => return signal.result) execute v vs p := by
  unfold callAnswered
  split
  · exact absurd ⟨rfl, rfl⟩ h
  · rfl

theorem callAnswered_relates {execute execute' : Nat → Stmt → Run Signal}
    (h : ∀ {n scope s₁ s₂}, (answering s e).own scope →
      s₁.Corresponds (answering s e).toCorrespondence s₂ →
      (answering s e).Relates n (answering s e).Signals (execute scope s₁) (execute' scope s₂))
    {v v' : Value} (hv : (answering s e).Values n v v') {vs vs' : List Value}
    (hvs : List.Forall₂ ((answering s e).Values n) vs vs') {p p' : Position}
    (hp : (answering s e).point (some (.mark "(")) p p') :
    (answering s e).Relates n (answering s e).Values
      (Run.call (fun signal => return signal.result) execute v vs p)
      (Run.callAnswered (answersOf s e) execute' v' vs' p') := by
  by_cases hasks : v = .builtin .input ∧ vs = []
  · obtain ⟨rfl, rfl⟩ := hasks
    obtain rfl := answering_values.1 hv
    cases hvs
    exact answer_relates
  · have hasks' : ¬(v' = .builtin .input ∧ vs' = []) := by
      rw [answering_values.1 hv, ← List.length_eq_zero_iff, ← hvs.length_eq,
        List.length_eq_zero_iff]
      exact hasks
    rw [Run.callAnswered_eq_call hasks']
    refine Run.call_relates answering_steady h hv hvs hp fun b hb hlength => ?_
    -- what is builtin asks for input, and it takes no arguments
    cases b with
    | input => exact absurd ⟨hb, List.length_eq_zero_iff.1 hlength⟩ hasks

theorem answering_relates (rounds depth : Nat) :
    (engine rounds depth).Relates (answering s e) (.answering (answersOf s e) rounds depth) := by
  unfold engine
  induction depth with
  | zero =>
    have hexhausted : (answering s e).stop .exhausted .exhausted := rfl
    exact {
      evaluate := fun _ _ => .throw hexhausted
      execute := fun _ _ => .throw hexhausted
      call := fun hv hvs hp => callAnswered_relates (fun _ _ => .throw hexhausted) hv hvs hp }
  | succ depth ih =>
    have hexecute {n scope : Nat} {s₁ s₂ : Stmt} (hscope : (answering s e).own scope)
        (h : s₁.Corresponds (answering s e).toCorrespondence s₂) :=
      Stmt.executeBy_relates (n := n) answering_steady ih rounds hscope h
    exact {
      evaluate := fun hscope h => Expr.evaluateBy_relates answering_steady ih hscope h
      execute := hexecute
      call := fun hv hvs hp => callAnswered_relates hexecute hv hvs hp }

end Answered

/-! ## Requests in a run -/

/-- Whether the run `r` asks for input once: it writes the prompt, takes the next line and gives its
    value. If no line is left, it gives `nil`, or is broken off. -/
def Run.AsksOnce (r : Run Value) (m : Machine) : Prop :=
  let asked := { m with output := m.output ++ inputPrompt }
  (m.input ≠ [] ∧ ∃ line rest v, Text.FirstLine m.input line rest ∧ v.Decodes line ∧ v ≠ .nil ∧
    r.run m = .ok v { asked with input := rest }) ∨
  (m.input = [] ∧ m.inputEnd = .closed ∧ r.run m = .ok .nil asked) ∨
  (m.input = [] ∧ m.inputEnd = .interrupts ∧ r.run m = .error .interrupted asked)

theorem Run.askLine_asksOnce (m : Machine) : askLine.AsksOnce m := by
  by_cases hnil : m.input = []
  · cases hend : m.inputEnd with
    | closed => exact .inr (.inl ⟨hnil, hend, askLine_of_closed hnil hend⟩)
    | interrupts => exact .inr (.inr ⟨hnil, hend, askLine_of_interrupts hnil hend⟩)
  · exact .inl ⟨hnil, _, _, _, Text.takeLine_firstLine m.input, inputValue_decodes _,
      (inputValue_decodes _).ne_nil, askLine_of_ne_nil hnil⟩

/-- Whether a run of `p` does the same where its requests for input are answered from the table
    `answers`, the first of them by the first answer, the second by the second and so on. What is
    left to read is then what the requests have left of the stream, with one line for each. -/
def Program.AnsweredFrom (answers : Nat → Option Value) (p : Program) (limits : Limits)
    (scope : Nat) (m : Machine) : Prop :=
  let read : Run Unit := p.run limits scope
  let answered : Run Unit := p.runBy (.answering answers limits.rounds limits.depth) scope
  answered.stop? (m.answered 0) = read.stop? m ∧
    ∃ n, (read.leaves m).input = Text.dropLines n m.input ∧
      answered.leaves (m.answered 0) = (read.leaves m).answered n

theorem Program.answeredFrom_answersOf (p : Program) (limits : Limits) (scope : Nat)
    (m : Machine) : p.AnsweredFrom (answersOf m.input m.inputEnd) limits scope m := by
  unfold AnsweredFrom
  intro read answered
  have hself : p.Corresponds (Simulation.answering m.input m.inputEnd).toCorrespondence p :=
    List.forall₂_same.2 fun s _ => s.corresponds_self (fun _ => rfl) fun _ _ => rfl
  have hstart : (Simulation.answering m.input m.inputEnd).state m (m.answered 0) :=
    ⟨rfl, 0, rfl, rfl⟩
  have hruns : (Simulation.answering m.input m.inputEnd).Relates 0 Simulation.Any
      (p.runBy (engine limits.rounds limits.depth) scope) answered :=
    runBy_relates (answering_relates limits.rounds limits.depth) trivial hself
  have hends := hruns hstart (Nat.zero_le _)
  rw [runBy_engine] at hends
  obtain ⟨⟨-, n, hinput, hleaves⟩, hstop⟩ := hends.leaves fun _ _ => id
  exact ⟨Stop.eq_of_rel hstop, n, hinput, hleaves⟩

/-- A call of `Builtin.input`, at any level of a run and on any machine, writes the prompt once,
    takes exactly one line, and gives the number for which the scan takes the line without the
    blanks around it, or else the text of the line; it gives `nil` just if the stream is exhausted.
    Every line has such a value, as `Value.Decodes` tells. And in every run of a program the
    requests for input are answered with the values of the lines, `answersOf` the input, one after
    the other. -/
theorem requests_answered :
    (∀ (rounds depth : Nat) (p : Position) (m : Machine),
      ((engine rounds depth).call (.builtin .input) [] p).AsksOnce m) ∧
    (∀ line, (inputValue line).Decodes line) ∧
    ∀ (p : Program) (limits : Limits) (scope : Nat) (m : Machine),
      p.AnsweredFrom (answersOf m.input m.inputEnd) limits scope m := by
  refine ⟨fun rounds depth p m => ?_, inputValue_decodes, Program.answeredFrom_answersOf⟩
  rw [call_input]
  exact Run.askLine_asksOnce m

end Scripting
