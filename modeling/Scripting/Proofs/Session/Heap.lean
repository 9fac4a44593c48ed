import Scripting.Proofs.Scope.Watched
import Scripting.Proofs.Session.Intact

set_option autoImplicit false

/-! # The heap of a session

Whatever texts are run on a machine, and however each of them ends, the heap stays `Machine.Orderly`
all the while, and a function stays what it was where it was declared: the scope that is its
`closure` is still there, inside the same scopes, when the block or the call that made it is long
gone. -/

namespace Scripting

/-! ## Texts -/

/-- Running a text by `interpret` upholds the heap, and is the same when it is watched. -/
theorem interpretWatched_upholds {w : Watch} (hw : w.Idle) (limits : Limits) (source : String)
    {e : Extent} (he : Machine.globals < e.scopes) :
    Run.Upholds e Run.Whatever (interpret limits source) (interpretWatched w limits source) := by
  unfold interpret interpretWatched
  cases hread : Program.ofSource limits.nesting source with
  | error refusal => exact .throw _
  | ok r =>
    exact Program.runWatched_upholds hw limits he (Program.functionFree_of_ofSource hread)

/-- A `Watch` that looks at nothing is `Idle`. -/
theorem Watch.idle_nothing : Watch.Idle ⟨fun _ => return (), fun _ => return ()⟩ :=
  ⟨fun _ _ => rfl, fun _ _ => rfl⟩

namespace Machine

variable {m : Machine}

theorem Formed.fresh (input : List Char) : (Machine.fresh input).Formed := by
  have hbare : (Machine.bare input).Formed := {
    tree := .root
    bound := by
      intro i s v hs hv
      obtain ⟨name, hmem⟩ := hv
      match i, hs with
      | 0, hs => cases hs; cases hmem
    closures := by simp [bare]
    code := by simp [Machine.FunctionFree, bare] }
  exact hbare.define (v := .builtin .input) trivial globals Builtin.input.name

theorem Formed.after (h : m.Formed) (limits : Limits) (source : String) :
    (m.after limits source).Formed ∧ m.Grows (m.after limits source) := by
  have hupholds := interpretWatched_upholds Watch.idle_nothing limits source
    (e := m.extent) h.tree.size_pos
  have hend := hupholds.ends h (Extent.le_refl _)
  unfold Machine.after
  cases hrun : (interpret limits source).run m with
  | ok a m' => rw [hrun] at hend; exact ⟨hend.1, hend.2.1⟩
  | error stop m' => rw [hrun] at hend; exact hend

/-- The machine that running some `texts` leaves behind, one after the other, however each ends. -/
def afterAll (m : Machine) (texts : List (Limits × String)) : Machine :=
  texts.foldl (fun m text => m.after text.1 text.2) m

theorem Formed.afterAll (h : m.Formed) (texts : List (Limits × String)) :
    (m.afterAll texts).Formed ∧ m.Grows (m.afterAll texts) := by
  induction texts generalizing m with
  | nil => exact ⟨h, .refl m⟩
  | cons text texts ih =>
    obtain ⟨hformed, hgrows⟩ := h.after text.1 text.2
    obtain ⟨hformed', hgrows'⟩ := ih hformed
    exact ⟨hformed', hgrows.trans hgrows'⟩

theorem Reachable.formed (h : m.Reachable) : m.Formed := by
  induction h with
  | fresh input => exact .fresh input
  | streams _ input inputEnd output journal ih => exact ih.of_streams rfl rfl
  | after _ limits source ih => exact (ih.after limits source).1

/-- Whether the function `f`, kept under the number `id`, can still be called on the machine `m`,
    inside the scopes `around`: it is `kept` there under the number, the scope that is its `closure`
    is there and inside these scopes, and a `call` with as many arguments as it takes carries out
    its body in a new scope inside of them. -/
structure Calls (m : Machine) (id : Nat) (f : Function) (around : List Nat) : Prop where
  kept : m.functions[id]? = some f
  closure : f.closure < m.scopes.size
  inside : (m.scopes.child f.closure).chain m.scopes.size = m.scopes.size :: around
  call : ∀ (conclude : Signal → Run Value) (execute : Nat → Stmt → Run Signal) (name : String)
    (arguments : List Value) (p : Position), arguments.length = f.parameters.length →
    (Run.call conclude execute (.function id name) arguments p).run m =
      (do
        Run.record f.name arguments p
        let signal ← Run.enter execute f arguments
        conclude signal : Run Value).run m

theorem Formed.calls (h : m.Formed) {id : Nat} {f : Function} (hf : m.functions[id]? = some f) :
    m.Calls id f (m.scopes.chain f.closure) where
  kept := hf
  closure := h.closures f (Array.mem_of_getElem? hf)
  inside := h.tree.chain_child (h.closures f (Array.mem_of_getElem? hf))
  call conclude execute name arguments p hlength := by
    have hfunction : (Run.function id).run m = .ok f m := by
      simp [Run.function, hf]
    simp only [Run.call]
    rw [EStateM.run_bind, hfunction]
    simp only [if_pos hlength]

/-- The heap of a `Reachable` machine is orderly whatever texts have been run, and all through the
    run of a further text: looking at it everywhere, at every scope that is run in and at every
    value that comes of an evaluation, changes nothing. And a function that is kept can be called
    behind any further `texts`, inside the scopes in which it was kept. -/
theorem Reachable.heap (h : m.Reachable) :
    m.Orderly ∧
    (∀ (w : Watch), w.Idle → ∀ (limits : Limits) (source : String),
      (interpretWatched w limits source).run m = (interpret limits source).run m) ∧
    ∀ {id : Nat} {f : Function}, m.functions[id]? = some f → ∀ texts : List (Limits × String),
      (m.afterAll texts).Orderly ∧ (m.afterAll texts).Calls id f (m.scopes.chain f.closure) := by
  have hformed := h.formed
  refine ⟨hformed.orderly, fun w hw limits source => ?_, fun {id f} hf texts => ?_⟩
  · have hupholds := interpretWatched_upholds (e := m.extent) hw limits source hformed.tree.size_pos
    exact hupholds.same hformed (Extent.le_refl _)
  · obtain ⟨hlater, hgrows⟩ := hformed.afterAll texts
    have hclosure := hformed.closures f (Array.mem_of_getElem? hf)
    refine ⟨hlater.orderly, ?_⟩
    rw [← hgrows.scopes.chain_eq hclosure hformed.tree]
    exact hlater.calls (hgrows.functions hf)

/-- A function that is declared in a block which a fault then breaks off. -/
theorem Reachable.heap_of_brokenOff :
    let m := (Machine.fresh []).after ⟨4, 8, 8⟩
      "let g = nil;\n\x7b\n  let n = nil;\n  fn f() \x7b return n; \x7d\n  g = f;\n  -n;\n\x7d"
    m.Reachable ∧ ∃ f, m.functions[0]? = some f ∧ ∀ texts : List (Limits × String),
      (m.afterAll texts).Orderly ∧ (m.afterAll texts).Calls 0 f [1, 0] := by
  have hkept : (fun m : Machine => (m.functions[0]?.map Function.closure, m.scopes.chain 1))
      ((Machine.fresh []).after ⟨4, 8, 8⟩
        "let g = nil;\n\x7b\n  let n = nil;\n  fn f() \x7b return n; \x7d\n  g = f;\n  -n;\n\x7d") =
      (some 1, [1, 0]) := by
    cbv
  intro m
  have hreachable : m.Reachable := .after (.fresh []) _ _
  obtain ⟨hclosure, hchain⟩ : m.functions[0]?.map Function.closure = some 1 ∧
      m.scopes.chain 1 = [1, 0] := Prod.mk.inj hkept
  obtain ⟨f, hf, hclosure⟩ := Option.map_eq_some_iff.1 hclosure
  refine ⟨hreachable, f, hf, fun texts => ?_⟩
  have hheap := (Reachable.heap hreachable).2.2 hf texts
  rwa [hclosure, hchain] at hheap

end Machine

end Scripting
