import Mathlib
import Scripting.Proofs.CommandLine.Asking
import Scripting.Proofs.Session.Unfinished

set_option autoImplicit false

/-! # Lines are gathered until they make up a program

A session that is given the lines of a program one by one waits for the next one as long as they end
too early, and then runs the program: it `Gathers` them. Nothing is reported and nothing is run
before. Only a line that ends inside a string is not waited for: it is reported as an
`unterminatedString`. -/

namespace Scripting.CommandLine

/-! ## Asking for several lines -/

/-- What asks for so many lines of one program. -/
def prompts : Nat → String
  | 0 => ""
  | 1 => ">>> "
  | n + 1 => prompts n ++ "... "

/-- The console `c` after `n` lines of one program have been asked for, and nothing else has been
    done. -/
def Console.asked (c : Console) (n : Nat) : Console :=
  { c with machine :=
    { c.machine with
      output := c.machine.output ++ prompts n
      input := Text.dropLines n c.machine.input } }

theorem Console.ask_asked (c : Console) (gathered : List String) :
    (c.asked gathered.length).ask gathered = c.asked (gathered.length + 1) := by
  have hprompts : prompts gathered.length ++ prompt gathered = prompts (gathered.length + 1) := by
    cases gathered with
    | nil => rfl
    | cons line gathered => rfl
  simp only [ask, asked, String.append_assoc, hprompts]
  rfl

theorem lines_dropLines {s : List Char} {taken more : List (List Char)}
    (h : Text.lines s = taken ++ more) :
    Text.lines (Text.dropLines taken.length s) = more := by
  rw [Text.lines_dropLines, h, List.drop_left]

/-! ## Lines of one program -/

/-- Whether the next `lines` of the console `c` make up the program `p`, and fewer of them do
    not. -/
structure Console.Offers (limits : Limits) (c : Console) (lines : List String) (p : Program) :
    Prop where
  typed : lines.map String.toList <+: Text.lines c.machine.input
  stays : ∃ first rest, lines = first :: rest ∧ leaves first.toList = false
  whole : ∃ tokens, Program.ofSource limits.nesting (String.intercalate "\n" lines) =
    .ok (tokens, p)
  parts : ∀ n, 0 < n → n < lines.length →
    ∀ r, Program.ofSource limits.nesting (String.intercalate "\n" (lines.take n)) ≠ .ok r

/-- Whether a session that begins with the console `c` takes `lines` as one program, `p`: it waits
    for the next line behind every one but the last, having done nothing but ask, and then runs the
    program. -/
structure Console.Gathers (limits : Limits) (c : Console) (lines : List String) (p : Program) :
    Prop where
  waits : ∀ n < lines.length,
    Interactive.steps limits ⟨c, []⟩ n = .next ⟨c.asked n, (lines.take n).reverse⟩
  runs : Interactive.steps limits ⟨c, []⟩ lines.length =
    runTyped limits (String.intercalate "\n" lines) p (c.asked lines.length)

theorem intercalate_take_drop {lines : List String} {n : Nat} (hpos : 0 < n)
    (hn : n < lines.length) :
    String.intercalate "\n" lines =
      String.intercalate "\n" (lines.take n) ++ "\n" ++ String.intercalate "\n" (lines.drop n) := by
  have htake : lines.take n ≠ [] := by
    rw [← List.length_pos_iff, List.length_take]
    omega
  have hdrop : lines.drop n ≠ [] := by
    rw [← List.length_pos_iff, List.length_drop]
    omega
  rw [← String.intercalate_append_of_ne_nil htake hdrop, List.take_append_drop]

namespace Console.Offers

variable {limits : Limits} {c : Console} {lines : List String} {p : Program}

/-- The lines that are left behind the first `n`. -/
theorem lines_asked (h : c.Offers limits lines p) {n : Nat} (hn : n < lines.length) :
    ∃ more, Text.lines (c.asked n).machine.input = lines[n].toList :: more := by
  obtain ⟨more, hmore⟩ := h.typed
  refine ⟨(lines.drop (n + 1)).map String.toList ++ more, ?_⟩
  have hsplit : lines = lines.take n ++ lines[n] :: lines.drop (n + 1) := by
    rw [List.getElem_cons_drop, List.take_append_drop]
  have hinput : Text.lines c.machine.input = (lines.take n).map String.toList ++
      (lines[n].toList :: ((lines.drop (n + 1)).map String.toList ++ more)) := by
    rw [← hmore, ← List.cons_append, ← List.map_cons, ← List.append_assoc, ← List.map_append,
      ← hsplit]
  have hlength : ((lines.take n).map String.toList).length = n := by simp [hn.le]
  have hleft := lines_dropLines hinput
  rw [hlength] at hleft
  exact hleft

/-- The step that takes the next of the `lines`. -/
theorem step_asked (h : c.Offers limits lines p) {n : Nat} (hn : n < lines.length) :
    Interactive.step limits ⟨c.asked n, (lines.take n).reverse⟩ =
      takeTyped limits (lines.take (n + 1)).reverse (c.asked (n + 1)) := by
  obtain ⟨more, hmore⟩ := h.lines_asked hn
  rw [Interactive.step_of_line hmore]
  have hask : (c.asked n).ask (lines.take n).reverse = c.asked (n + 1) := by
    have hlength : (lines.take n).reverse.length = n := by simp [hn.le]
    have hasked := c.ask_asked (lines.take n).reverse
    rwa [hlength] at hasked
  have hstays : ((lines.take n).reverse.isEmpty && leaves lines[n].toList) = false := by
    obtain ⟨first, rest, rfl, hfirst⟩ := h.stays
    cases n with
    | zero => simpa using hfirst
    | succ n => simp
  have htake : lines[n] :: (lines.take n).reverse = (lines.take (n + 1)).reverse := by
    rw [List.take_succ_eq_append_getElem hn, List.reverse_append, List.reverse_singleton,
      List.singleton_append]
  simp only [hstays, hask, String.ofList_toList, htake, Bool.false_eq_true, if_false]

end Console.Offers

/-- Lines that make up a program, while fewer of them do not, are gathered and run as that program,
    unless they are cut inside a string or nested too deeply to be read, as `hcut` rules out. -/
theorem Console.gathers_of_offers {limits : Limits} {c : Console} {lines : List String}
    {p : Program} (h : c.Offers limits lines p)
    (hcut : ∀ n, 0 < n → n < lines.length → ∃ f,
      Program.ofSource limits.nesting (String.intercalate "\n" (lines.take n)) =
        .error (.fault f) ∧ f.cause ≠ .unterminatedString) :
    c.Gathers limits lines p := by
  have hwait : ∀ n, 0 < n → n < lines.length →
      takeTyped limits (lines.take n).reverse (c.asked n) =
        .next ⟨c.asked n, (lines.take n).reverse⟩ := by
    intro n hpos hn
    obtain ⟨f, hf, hcause⟩ := hcut n hpos hn
    obtain ⟨tokens, hwhole⟩ := h.whole
    rw [intercalate_take_drop hpos hn] at hwhole
    have hend : f.isAtEnd = true := by
      rcases Program.refusal_of_prefix hf hwhole with hdeep | ⟨f', hf', hstring | hend⟩
      · cases hdeep
      · cases hf'
        exact absurd hstring hcause
      · cases hf'
        exact hend
    unfold takeTyped
    simp only [sourceOf, List.reverse_reverse, hf, hend, if_true]
  have hwaits : ∀ n < lines.length,
      Interactive.steps limits ⟨c, []⟩ n = .next ⟨c.asked n, (lines.take n).reverse⟩ := by
    intro n
    induction n with
    | zero =>
      intro _
      simp [Interactive.steps, Console.asked, prompts, Text.dropLines]
    | succ n ih =>
      intro hn
      simp only [Interactive.steps, ih (by omega)]
      rw [h.step_asked (by omega), hwait (n + 1) n.succ_pos hn]
  refine ⟨hwaits, ?_⟩
  have hpos : 0 < lines.length := by
    obtain ⟨first, rest, rfl, -⟩ := h.stays
    simp
  obtain ⟨n, hn⟩ := Nat.exists_eq_add_one.2 hpos
  obtain ⟨tokens, hwhole⟩ := h.whole
  have hlast := h.step_asked (show n < lines.length by omega)
  rw [← hn, List.take_length] at hlast
  conv_lhs => rw [hn]
  simp only [Interactive.steps, hwaits n (by omega)]
  rw [hlast]
  unfold takeTyped
  simp only [sourceOf, List.reverse_reverse, hwhole]

/-- A variable is declared in three lines. -/
theorem Console.gathers_of_offers_declaration :
    let c := Console.start false "let x = (\nnil\n);\nprint x;".toList .closed
    let lines := ["let x = (", "nil", ");"]
    ∃ p, c.Offers ⟨8, 8, 8⟩ lines p ∧ c.Gathers ⟨8, 8, 8⟩ lines p := by
  intro c lines
  have hcut : ∀ n, 0 < n → n < lines.length → ∃ f,
      Program.ofSource 8 (String.intercalate "\n" (lines.take n)) = .error (.fault f) ∧
        f.cause ≠ .unterminatedString := by
    intro n hpos hn
    obtain rfl | rfl : n = 1 ∨ n = 2 := by
      simp only [lines, List.length_cons, List.length_nil] at hn
      omega
    · refine ⟨?_, ?read, ?other⟩
      case read => cbv; rfl
      case other => simp
    · refine ⟨?_, ?read, ?other⟩
      case read => cbv; rfl
      case other => simp
  have hwhole : ∃ tokens p,
      Program.ofSource 8 (String.intercalate "\n" lines) = .ok (tokens, p) := by
    refine ⟨?_, ?_, ?read⟩
    case read => cbv; rfl
  obtain ⟨tokens, p, hread⟩ := hwhole
  have hoffers : c.Offers ⟨8, 8, 8⟩ lines p := by
    refine ⟨⟨["print x;".toList], by cbv⟩, ⟨_, _, rfl, by cbv⟩, ⟨tokens, hread⟩, ?_⟩
    intro n hpos hn r hr
    obtain ⟨f, hf, -⟩ := hcut n hpos hn
    cases hf.symm.trans hr
  exact ⟨p, hoffers, Console.gathers_of_offers hoffers hcut⟩

/-- Two lines, `first` and `second`, that make up a program, of which the first is none. -/
theorem Console.Offers.of_pair {limits : Limits} {c : Console} {first second : String}
    {p : Program} {e : Refusal}
    (htyped : [first, second].map String.toList <+: Text.lines c.machine.input)
    (hstays : leaves first.toList = false)
    (hwhole : ∃ tokens, Program.ofSource limits.nesting (String.intercalate "\n" [first, second]) =
      .ok (tokens, p))
    (hcut : Program.ofSource limits.nesting first = .error e) :
    c.Offers limits [first, second] p := by
  refine ⟨htyped, ⟨_, _, rfl, hstays⟩, hwhole, ?_⟩
  intro n hpos hn r hr
  obtain rfl : n = 1 := by
    simp only [List.length_cons, List.length_nil] at hn
    omega
  cases hcut.symm.trans hr

/-- Lines are not gathered where `takeTyped` does not wait behind the first of them. -/
theorem Console.Offers.not_gathers {limits : Limits} {c : Console} {lines : List String}
    {p : Program} (h : c.Offers limits lines p) (hlength : 1 < lines.length)
    (htake : takeTyped limits (lines.take 1).reverse (c.asked 1) ≠
      .next ⟨c.asked 1, (lines.take 1).reverse⟩) :
    ¬ c.Gathers limits lines p := by
  intro hgathers
  have hstep := hgathers.waits 1 hlength
  simp only [Interactive.steps] at hstep
  have hasked := h.step_asked (show 0 < lines.length by omega)
  have hstart : (⟨c.asked 0, (lines.take 0).reverse⟩ : Interactive) = ⟨c, []⟩ := by
    simp [asked, prompts, Text.dropLines]
  rw [hstart, hstep] at hasked
  exact htake hasked.symm

/-- A line that ends inside a string is reported and not waited for. A line that is nested too
    deeply to be read ends the session, also where the program is not. -/
theorem Console.not_gathers_of_offers :
    (∃ p, (Console.start false "print \"a\nb\";\n".toList .closed).Offers
        ⟨8, 8, 8⟩ ["print \"a", "b\";"] p ∧
      ¬ (Console.start false "print \"a\nb\";\n".toList .closed).Gathers
        ⟨8, 8, 8⟩ ["print \"a", "b\";"] p) ∧
    ∃ p, (Console.start false "f(\n);\n".toList .closed).Offers ⟨0, 8, 8⟩ ["f(", ");"] p ∧
      ¬ (Console.start false "f(\n);\n".toList .closed).Gathers ⟨0, 8, 8⟩ ["f(", ");"] p := by
  constructor
  · have hwhole : ∃ tokens p, Program.ofSource 8 "print \"a\nb\";" = .ok (tokens, p) := by
      refine ⟨?_, ?_, ?read⟩
      case read => cbv; rfl
    have hcut : ∃ f, Program.ofSource 8 "print \"a" = .error (.fault f) ∧ f.isAtEnd = false := by
      refine ⟨?_, ?read, ?inside⟩
      case read => cbv; rfl
      case inside => rfl
    obtain ⟨tokens, p, hread⟩ := hwhole
    obtain ⟨f, hcut, hinside⟩ := hcut
    have hoffers : (Console.start false "print \"a\nb\";\n".toList .closed).Offers
        ⟨8, 8, 8⟩ ["print \"a", "b\";"] p :=
      .of_pair ⟨[], by cbv⟩ (by cbv) ⟨tokens, hread⟩ hcut
    refine ⟨p, hoffers, hoffers.not_gathers (by simp) ?_⟩
    have hsource : sourceOf (["print \"a", "b\";"].take 1).reverse = "print \"a" := rfl
    simp only [takeTyped, hsource, hcut, hinside]
    simp
  · have hwhole : ∃ tokens p, Program.ofSource 0 "f(\n);" = .ok (tokens, p) := by
      refine ⟨?_, ?_, ?read⟩
      case read => cbv; rfl
    have hcut : Program.ofSource 0 "f(" = .error .tooDeep := by cbv
    obtain ⟨tokens, p, hread⟩ := hwhole
    have hoffers : (Console.start false "f(\n);\n".toList .closed).Offers
        ⟨0, 8, 8⟩ ["f(", ");"] p :=
      .of_pair ⟨[], by cbv⟩ (by cbv) ⟨tokens, hread⟩ hcut
    refine ⟨p, hoffers, hoffers.not_gathers (by simp) ?_⟩
    have hsource : sourceOf (["f(", ");"].take 1).reverse = "f(" := rfl
    simp only [takeTyped, hsource, hcut]
    simp

end Scripting.CommandLine
