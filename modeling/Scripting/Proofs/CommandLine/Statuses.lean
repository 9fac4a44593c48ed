import Scripting.Proofs.CommandLine.Reporting
import Scripting.Proofs.CommandLine.Scripts
import Scripting.Proofs.Session.Reachable

set_option autoImplicit false

/-! # How the command line ends

The command ends with one of three statuses, or a program keeps it from ending (`Ending.Proper`). It
leaves some errors of its surroundings to the host, which `Invocation.Escapes` lists: a limit that
is too large, or too low for the calls that are open; a script or an input whose bytes are no text;
and an input that is broken off from the keyboard under a script. Whatever else is wrong is
reported, and told by the status. `Invocation.Ends` says how a call ends by what it finds, and
`ends_or_escapes` that every call ends so. -/

namespace Scripting

theorem Machine.Reachable.leaves {m : Machine} (hm : m.Reachable) (limits : Limits)
    (source : String) : ((interpret limits source).leaves m).Reachable := by
  have hafter := hm.after limits source
  unfold Machine.after at hafter
  unfold Run.leaves
  cases hrun : (interpret limits source).run m <;> simpa only [hrun] using hafter

namespace CommandLine

/-! ## Endings of sessions -/

/-- Whether a run ends with a status of the command, or does not end. -/
def Ending.Proper (e : Ending) : Prop :=
  e = success ∨ e = failure ∨ e = fatal ∨ e = .unfinished

theorem Ending.not_proper_escaped (e : Escape) : ¬ (Ending.escaped e).Proper := by
  rintro (h | h | h | h) <;> cases h

/-- Whether a step leads to an ending of the command, or goes on with a machine that comes about in
    a session. -/
def Step.Proper : Step → Prop
  | .next s => s.console.machine.Reachable
  | .ended _ e => e.Proper
  | .interrupted _ => True

section Sessions

variable {limits : Limits} {c : Console}

namespace Interactive

end Interactive

end Sessions

/-! ## Endings of scripts -/

/-- Whether the text `s`, which proposes a limit on recursion, is no integer, or not one that can be
    a limit. -/
def Unusable (s : String) : Prop :=
  s ≠ "" ∧ ∀ n, Text.integer? s.toList = some n → n < 1 ∨ greatestLimit < n

/-- Whether the text `s`, which proposes a limit, is an integer that the host has no room for. -/
def OutOfRange (s : String) : Prop :=
  ∃ n, Text.integer? s.toList = some n ∧ (greatestLimit < n ∨ n < -greatestLimit - 1)

/-- Whether the text `s` proposes the number `n`, which can be a limit. -/
def Proposes (s : String) (n : Int) : Prop :=
  Text.integer? s.toList = some n ∧ 1 ≤ n ∧ n ≤ greatestLimit

/-- The note of a proposed limit `s` that is set aside. -/
def limitNote (s : String) : String :=
  s!"Ignoring invalid {limitVariable} '{s}'"

section Limits

variable {depth : Nat} {s : String} {n : Int}

theorem ne_empty_of_integer? (h : Text.integer? s.toList = some n) : s ≠ "" := by
  rintro rfl
  cases h

/-- A number `n` that can be a limit is set by `judgeLimit` if it is above the `depth` of the calls
    that are open. -/
theorem judgeLimit_of_proposes (h : Proposes s n) :
    judgeLimit depth (some s) =
      if n ≤ depth then .refused (.tooLow n depth) else .accepted (some n) := by
  obtain ⟨hn, hpos, hgreatest⟩ := h
  have hin : ¬ (greatestLimit < n ∨ n < -greatestLimit - 1) := by
    unfold greatestLimit at *
    omega
  have hlow : ¬ n < 1 := by omega
  simp only [judgeLimit, if_neg (ne_empty_of_integer? hn), hn, if_neg hin, if_neg hlow]

end Limits

namespace Invocation

variable {limits : Limits} {i : Invocation}

/-- The call `i` with no limit proposed. -/
def unlimited (i : Invocation) : Invocation :=
  { i with environment := { i.environment with recursionLimit := none } }

/-- Whether the call `i` proposes the number `n`, which can be a limit. -/
def Limited (i : Invocation) (n : Int) : Prop :=
  ∃ s, i.environment.recursionLimit = some s ∧ Proposes s n

/-- The number of calls that are open while the command begins its action. -/
def beginning (i : Invocation) : Nat :=
  i.environment.stack.beginning i.file (Action.ofArguments i.arguments)

/-- The errors of its surroundings that the call `i` of the command leaves to the host. -/
inductive Escapes (i : Invocation) : Escape → Prop
  /-- The host has no room for the number that is proposed. -/
  | tooLarge {s : String} (hlimit : i.environment.recursionLimit = some s)
    (hrange : OutOfRange s) : Escapes i (@Escape.limitOutOfRange .tooLarge)
  /-- So many calls are open already where the limit is to be set. -/
  | tooLow {n : Int} (hlimit : i.Limited n) (hlow : n ≤ i.environment.stack.depth) :
    Escapes i (@Escape.limitOutOfRange (.tooLow n i.environment.stack.depth))
  /-- The limit is set, and a script cannot be opened within it, or no session be set up. -/
  | reached {n : Int} (hlimit : i.Limited n) (hset : i.environment.stack.depth < n)
    (hlow : n < i.beginning) : Escapes i (@Escape.limitOutOfRange .reached)
  /-- The script is no text. -/
  | undecodable {path : String} {content : ByteArray} {f : Text.Utf8Fault}
    (haction : Action.ofArguments i.arguments = .script path)
    (hread : (i.file path).read = .ok content) (hdecode : textOfBytes content = .error f) :
    Escapes i (.undecodable f)
  /-- The input is no text, and is read to where it is none. -/
  | inputUndecodable {f : Text.Utf8Fault} (hfault : i.inputFault = some f)
    (haction : ∀ e, Action.ofArguments i.arguments ≠ .explain e) : Escapes i (.undecodable f)
  /-- A script reads on where the input is broken off from the keyboard. -/
  | interrupted {path : String} (haction : Action.ofArguments i.arguments = .script path)
    (hend : i.inputEnd = .interrupts) (hfault : i.inputFault = none) : Escapes i .interrupted

/-- How the call `i` of the command ends. -/
structure Ends (limits : Limits) (i : Invocation) : Prop where
  /-- It ends with a status, or does not end, or leaves an error of its surroundings to the host. -/
  ending : (i.run limits).ending.Proper ∨
    ∃ e, (i.run limits).ending = .escaped e ∧ i.Escapes e
  /-- A proposed limit that is too large ends it before anything else. -/
  outOfRange : ∀ s, i.environment.recursionLimit = some s → OutOfRange s →
    i.run limits = ⟨.escaped (@Escape.limitOutOfRange .tooLarge), "", ""⟩
  /-- So does a limit that is not above the calls that are open. -/
  tooLow : ∀ n, i.Limited n → n ≤ i.environment.stack.depth →
    i.run limits =
      ⟨.escaped (@Escape.limitOutOfRange (.tooLow n i.environment.stack.depth)), "", ""⟩
  /-- A limit within which the action cannot begin ends it there. -/
  reached : ∀ n, i.Limited n → i.environment.stack.depth < n → n < i.beginning →
    i.run limits = ⟨.escaped (@Escape.limitOutOfRange .reached),
      ((Action.ofArguments i.arguments).begun i.start).machine.output, ""⟩
  /-- A limit that is no number, or below one, is noted, and set aside. -/
  ignored : ∀ s, i.environment.recursionLimit = some s → Unusable s → ¬ OutOfRange s →
    i.run limits = { i.unlimited.run limits with
      errors := limitNote s ++ "\n" ++ (i.unlimited.run limits).errors }
  /-- Nothing is noted of a limit within which the action begins, nor of the empty text. -/
  accepted : (∀ s, i.environment.recursionLimit = some s → s = "" ∨
      ∃ n, Proposes s n ∧ i.environment.stack.depth < n ∧ i.beginning ≤ n) →
    i.run limits = i.unlimited.run limits
  /-- A script is run on the console with which the command begins, behind the note of a limit. -/
  script : ∀ path c, Action.ofArguments i.arguments = .script path →
    i.environment.settle i.start = .ok c →
    (∀ n, i.Limited n → i.beginning ≤ n) →
    c.machine = i.start.machine ∧ ScriptEnds limits path (i.file path) c (i.leaves limits)

/-! ### The settings -/

section Settings

variable {s : String} {n : Int}

theorem limitSetting_of_some (h : i.environment.recursionLimit = some s) :
    i.environment.limitSetting = judgeLimit i.environment.stack.depth (some s) := by
  rw [Environment.limitSetting, h]

/-- A refused limit is all there is to a call. -/
theorem run_of_refused {f : LimitFault} (h : i.environment.limitSetting = .refused f) :
    i.run limits = ⟨.escaped (@Escape.limitOutOfRange f), "", ""⟩ := by
  simp only [run_eq, leaves, Environment.settle, h]
  rfl

theorem settle_of_accepted {limit : Option Int}
    (h : i.environment.limitSetting = .accepted limit) :
    i.environment.settle i.start = .ok i.start := by
  simp only [Environment.settle, h]

namespace Limited

theorem limitSetting (h : i.Limited n) :
    i.environment.limitSetting =
      if n ≤ i.environment.stack.depth then .refused (.tooLow n i.environment.stack.depth)
      else .accepted (some n) := by
  obtain ⟨s, hs, hn⟩ := h
  rw [limitSetting_of_some hs, judgeLimit_of_proposes hn]

theorem limitSetting_of_set (h : i.Limited n) (hset : i.environment.stack.depth < n) :
    i.environment.limitSetting = .accepted (some n) := by
  rw [h.limitSetting, if_neg (Int.not_le.2 hset)]

theorem settle (h : i.Limited n) (hset : i.environment.stack.depth < n) :
    i.environment.settle i.start = .ok i.start :=
  settle_of_accepted (h.limitSetting_of_set hset)

/-- A limit that is set is reached just if the action takes more calls than it to begin. -/
theorem reaches (h : i.Limited n) (hset : i.environment.stack.depth < n) :
    i.environment.reaches i.file (Action.ofArguments i.arguments) = decide (n < i.beginning) := by
  rw [Environment.reaches, h.limitSetting_of_set hset]
  rfl

end Limited

end Settings

/-! ### The action -/

theorem Ending.Proper.brokenOffBy {e : Ending} (h : e.Proper) (fault : Option Text.Utf8Fault) :
    e.brokenOffBy fault = e := by
  cases fault with
  | none => rfl
  | some f =>
    refine if_neg ?_
    rintro rfl
    exact Ending.not_proper_escaped _ h

/-- A call that runs an empty script. So many calls are open where the limit is set, and so many
    while the script is opened. -/
def plain (limit : Option String) : Invocation where
  arguments := ["a.sprig"]
  file _ := .bytes ⟨#[]⟩
  input := []
  inputEnd := .closed
  environment := { debug := none, recursionLimit := limit, stack := ⟨5, fun _ => 9, 9⟩ }

/-- What is wrong with bytes that begin with one that begins no character. -/
def startByte : Text.Utf8Fault := ⟨.startByte, 0, 0xff, 1⟩

end Invocation

end CommandLine

end Scripting
