import Scripting.Proofs.Evaluation.Keeping
import Scripting.Proofs.Grammar.CutShort
import Scripting.Proofs.Session.Texts

set_option autoImplicit false

/-! # Texts that are cut short

Where the room of a run is used up, be it in reading a text or in running it, the run ends there,
with `Stop.exhausted`. A run of the same text with other means beyond its room, and one with more
room among them, does the same or goes on from there. -/

namespace Scripting

/-! ## Texts with something beyond their room -/

namespace Program

/-- The program that the `tokens` spell, read with room for `depth` levels of nesting, and with
    parts that are read `beyond`. -/
def ofTokensUpTo (beyond : Nested) (depth : Nat) (tokens : List Token) :
    Except Refusal Program :=
  match Cursor.ofTokens? tokens with
  | none => .error (.fault ⟨.violation (.expected (.token .endOfInput none)) none, .none⟩)
  | some c =>
    match Grammar.program (Grammar.nestedUpTo beyond depth) c with
    | .ok p _ => .ok p
    | .error e _ => .error e

/-- The tokens and the program of the text `source`, with parts that are read `beyond` the room. -/
def ofSourceUpTo (beyond : Nested) (depth : Nat) (source : String) :
    Except Refusal (List Token × Program) :=
  match tokenize source with
  | .error f => .error (.fault f)
  | .ok tokens => (ofTokensUpTo beyond depth tokens).map fun p => (tokens, p)

/-- Run the statements of a program in the scope, with something that is done `beyond` the room. -/
def runUpTo (beyond : Beyond) (limits : Limits) (scope : Nat) : Program → Run Unit
  | [] => return ()
  | s :: rest => do
    let conclude (signal : Signal) : Run Value := return signal.result
    let _ ← (Engine.towerUpTo beyond conclude limits.rounds limits.depth).execute scope s
    runUpTo beyond limits scope rest

end Program

/-- Run the text `source` in the outermost scope, with `parts` that are read beyond the room for
    nesting and something that is done `beyond` the room for evaluation. -/
def interpretUpTo (parts : Nested) (beyond : Beyond) (limits : Limits) (source : String) :
    Run Unit :=
  match Program.ofSourceUpTo parts limits.nesting source with
  | .error refusal => throw refusal.stop
  | .ok (_, p) => p.runUpTo beyond limits Machine.globals

/-! ## Runs that are cut short -/

/-- A run that is not `exhausted` does the same with anything beyond its room. -/
theorem CutShort.run_eq_of_stop {after : Machine → Machine → Prop} {α : Type} {r r' : Run α}
    (h : CutShort .exhausted after r r') {m : Machine} (hstop : r.stop? m ≠ some .exhausted) :
    r'.run m = r.run m := by
  rcases h.ends m with hsame | ⟨m₁, hcut, -⟩
  · exact hsame.symm
  · exact absurd (Run.stop?_eq_some.2 ⟨m₁, hcut⟩) hstop

/-- The run `r'` leads to later machines than `r`, which is cut short of it. -/
theorem CutShort.leaves {after : Machine → Machine → Prop} [Advancing after] {α : Type}
    {r r' : Run α} (h : CutShort .exhausted after r r') (m : Machine) :
    after (r.leaves m) (r'.leaves m) := by
  unfold Run.leaves
  rcases h.ends m with hsame | ⟨m₁, hcut, hlater⟩
  · rw [hsame]
    exact Advancing.refl _
  · rw [hcut]
    cases hrun : r'.run m <;> rw [hrun] at hlater <;> exact hlater

namespace Program

/-! ## Reading -/

theorem ofTokens_cutShort (beyond : Nested) (depth : Nat) (tokens : List Token) :
    ofTokens depth tokens = ofTokensUpTo beyond depth tokens ∨
      ofTokens depth tokens = .error .tooDeep := by
  unfold ofTokens ofTokensUpTo
  cases Cursor.ofTokens? tokens with
  | none => exact .inl rfl
  | some c =>
    have hread := Grammar.program_cutShort (Grammar.nested_cutShort beyond depth)
    rcases CutShort.ends hread c with hsame | ⟨c₁, hcut, -⟩
    · rw [EStateM.run, EStateM.run] at hsame
      cases hbeyond : Grammar.program (Grammar.nestedUpTo beyond depth) c <;>
        simp [hsame, hbeyond]
    · rw [EStateM.run] at hcut
      refine .inr ?_
      simp only [hcut]

theorem ofSource_cutShort (beyond : Nested) (depth : Nat) (source : String) :
    ofSource depth source = ofSourceUpTo beyond depth source ∨
      ofSource depth source = .error .tooDeep := by
  unfold ofSource ofSourceUpTo
  cases tokenize source with
  | error f => exact .inl rfl
  | ok tokens =>
    rcases ofTokens_cutShort beyond depth tokens with hsame | hcut
    · exact .inl (congrArg (Except.map fun p => (tokens, p)) hsame)
    · exact .inr (congrArg (Except.map fun p => (tokens, p)) hcut)

theorem ofTokensUpTo_nested (further depth : Nat) (tokens : List Token) :
    ofTokensUpTo (Grammar.nested further) depth tokens = ofTokens (further + depth) tokens := by
  cases hc : Cursor.ofTokens? tokens with
  | none => simp [ofTokensUpTo, ofTokens, hc]
  | some c =>
    cases hread : Grammar.program (Grammar.nested (further + depth)) c <;>
      simp [ofTokensUpTo, ofTokens, Grammar.nestedUpTo_nested, hc, hread]

theorem ofSourceUpTo_nested (further depth : Nat) (source : String) :
    ofSourceUpTo (Grammar.nested further) depth source = ofSource (further + depth) source := by
  unfold ofSourceUpTo ofSource
  cases tokenize source with
  | error f => rfl
  | ok tokens => exact congrArg (Except.map fun p => (tokens, p)) (ofTokensUpTo_nested ..)

section

variable {depth room : Nat} (hle : depth ≤ room)

include hle

/-- Tokens that are not `tooDeep` for the room of their nesting are read alike with more. -/
theorem ofTokens_of_le {tokens : List Token} (h : ofTokens depth tokens ≠ .error .tooDeep) :
    ofTokens room tokens = ofTokens depth tokens := by
  have hread := ofTokens_cutShort (Grammar.nested (room - depth)) depth tokens
  rw [ofTokensUpTo_nested, Nat.sub_add_cancel hle] at hread
  exact (hread.resolve_right h).symm

/-- A text that is not `tooDeep` for the room of its nesting is read alike with more. -/
theorem ofSource_of_le {source : String} (h : ofSource depth source ≠ .error .tooDeep) :
    ofSource room source = ofSource depth source := by
  have hread := ofSource_cutShort (Grammar.nested (room - depth)) depth source
  rw [ofSourceUpTo_nested, Nat.sub_add_cancel hle] at hread
  exact (hread.resolve_right h).symm

end

/-! ## Running -/

section

variable {after : Machine → Machine → Prop} [Machine.Advancing after] {beyond : Beyond}

theorem run_cutShort (hbeyond : beyond.Advances after) (limits : Limits) (scope : Nat)
    (p : Program) :
    CutShort .exhausted after (p.run limits scope) (p.runUpTo beyond limits scope) := by
  have hconclude (signal : Signal) : Advances after (return signal.result : Run Value) := .pure _
  induction p with
  | nil => exact .refl (.pure ())
  | cons s rest ih =>
    have hengine := Engine.tower_cutShort hconclude hbeyond limits.rounds limits.depth
    exact (hengine.execute scope s).bind fun _ => ih

/-- More room, that of `wider` limits, is something that is done `beyond`. -/
theorem runUpTo_engine {limits wider : Limits} {further : Nat}
    (hdepth : wider.depth = further + limits.depth) (hrounds : limits.rounds = wider.rounds)
    (scope : Nat) (p : Program) :
    p.runUpTo (engine wider.rounds further).beyond limits scope = p.run wider scope := by
  induction p with
  | nil => rfl
  | cons s rest ih =>
    rw [runUpTo, ih, run, hrounds, engine, Engine.towerUpTo_tower, ← hdepth]
    rfl

end

/-- A program that does not use up its `depth` does the same with more. -/
theorem run_of_depth_le {limits : Limits} {scope depth depth' : Nat} {p : Program} {m : Machine}
    (hle : depth ≤ depth') (h : (p.run { limits with depth } scope).stop? m ≠ some .exhausted) :
    (p.run { limits with depth := depth' } scope).run m =
      (p.run { limits with depth } scope).run m := by
  have hbeyond : (engine limits.rounds (depth' - depth)).beyond.Advances fun _ _ => True :=
    Engine.tower_advances (fun _ => .pure _) _ _
  have hcut := run_cutShort hbeyond { limits with depth } scope p
  have hdepth : ({ limits with depth := depth' } : Limits).depth =
      depth' - depth + ({ limits with depth } : Limits).depth := (Nat.sub_add_cancel hle).symm
  rw [← runUpTo_engine hdepth rfl scope p]
  exact hcut.run_eq_of_stop h

end Program

/-! ## Texts -/

/-- Whether a run with `limits` has no more room than one with `wider` ones, and as many rounds. -/
structure Limits.Within (limits wider : Limits) : Prop where
  nesting : limits.nesting ≤ wider.nesting
  depth : limits.depth ≤ wider.depth
  rounds : limits.rounds = wider.rounds

section

variable {after : Machine → Machine → Prop} [Machine.Advancing after]

/-- Running a text by `interpret` is cut short of running it with anything beyond its room. -/
theorem interpret_cutShort (parts : Nested) {beyond : Beyond} (hbeyond : beyond.Advances after)
    (limits : Limits) (source : String) :
    CutShort .exhausted after (interpret limits source)
      (interpretUpTo parts beyond limits source) := by
  unfold interpret interpretUpTo
  have hread := Program.ofSource_cutShort parts limits.nesting source
  cases hparts : Program.ofSourceUpTo parts limits.nesting source with
  | error refusal =>
    rcases hread with hsame | hcut
    · rw [hsame, hparts]
      exact .refl (.throw _)
    · rw [hcut]
      exact .throw (.throw _)
  | ok r =>
    have hrun := Program.run_cutShort hbeyond limits Machine.globals r.2
    rcases hread with hsame | hcut
    · rw [hsame, hparts]
      exact hrun
    · rw [hcut]
      exact .throw hrun.advances

end

/-- The `wider` limits are the narrower ones with further levels beyond. -/
theorem Limits.Within.interpret_eq {limits wider : Limits} (h : limits.Within wider)
    (source : String) :
    interpret wider source =
      interpretUpTo (Grammar.nested (wider.nesting - limits.nesting))
        (engine wider.rounds (wider.depth - limits.depth)).beyond limits source := by
  have hdepth : wider.depth = wider.depth - limits.depth + limits.depth :=
    (Nat.sub_add_cancel h.depth).symm
  unfold interpret interpretUpTo
  rw [Program.ofSourceUpTo_nested, Nat.sub_add_cancel h.nesting]
  cases Program.ofSource wider.nesting source with
  | error refusal => rfl
  | ok r => exact (Program.runUpTo_engine hdepth h.rounds Machine.globals r.2).symm

/-- Running a text with `limits` is cut short of running it with more room. -/
theorem Limits.Within.cutShort {limits wider : Limits} (h : limits.Within wider)
    (source : String) :
    CutShort .exhausted Machine.Continues (interpret limits source) (interpret wider source) := by
  rw [h.interpret_eq]
  exact interpret_cutShort _ (Engine.tower_advances (fun _ => .pure _) _ _) limits source

end Scripting
