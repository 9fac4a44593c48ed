set_option autoImplicit false

/-! # Bindings

`Bindings` keeps values under names, each name once, in the order in which the names were first
bound. `put` binds a name: a name that is bound already gets a new value and stays in its place.
`find?` looks a name up. -/

namespace Scripting

/-- Values by name. -/
abbrev Bindings (β : Type) := List (String × β)

namespace Bindings

variable {β : Type}

/-- Bind `name` to `value`: replace its value where it is bound, or add it behind the others. -/
def put (name : String) (value : β) : Bindings β → Bindings β
  | [] => [(name, value)]
  | (n, v) :: rest => if n = name then (name, value) :: rest else (n, v) :: put name value rest

/-- The value of `name`, if it is bound. -/
def find? (bindings : Bindings β) (name : String) : Option β :=
  bindings.lookup name

/-- The `bindings` in the order of their names. -/
def sorted (bindings : Bindings β) : Bindings β :=
  bindings.mergeSort fun a b => !(b.1 < a.1)

/-- `put` changes what `find?` gives for `name` and for no `other` name. -/
@[simp] theorem find?_put (bindings : Bindings β) (name other : String) (value : β) :
    (put name value bindings).find? other =
      if other = name then some value else bindings.find? other := by
  unfold find?
  induction bindings with
  | nil => simp only [put, List.lookup_cons, List.lookup_nil]; split <;> simp_all
  | cons b rest ih =>
    obtain ⟨n, v⟩ := b
    simp only [put]
    split
    · subst n; simp only [List.lookup_cons]; split <;> simp_all
    · simp only [List.lookup_cons, ih]; split <;> simp_all

/-- `put` keeps the names in their order, and adds `name` behind them only where it was not
    bound. -/
theorem map_fst_put (bindings : Bindings β) (name : String) (value : β) :
    (put name value bindings).map Prod.fst =
      if name ∈ bindings.map Prod.fst then bindings.map Prod.fst
      else bindings.map Prod.fst ++ [name] := by
  induction bindings with
  | nil => rfl
  | cons b rest ih =>
    obtain ⟨n, v⟩ := b
    simp only [put]
    split
    · subst n; simp
    · simp only [List.map_cons, ih, List.mem_cons]
      split <;> split <;> simp_all

end Bindings

end Scripting
