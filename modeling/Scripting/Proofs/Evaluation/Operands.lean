import Scripting.Operation
import Scripting.Proofs.Grammar.Spelling

set_option autoImplicit false

/-! # What operations see of their operands

The number of a function tells it apart from other functions, and nothing else is seen of it: with
other numbers in its operands, `Value.renumbered`, as long as they are as distinct, an operation has
the same value, which is no function, or the same hindrance. A fault of an operation is about the
operator, its `Cause.subject?`. -/

namespace Scripting

/-! ## Functions under other numbers -/

namespace Value

/-- A value in which a function has another number, as `number` gives it. -/
def renumbered (number : Nat → Nat) : Value → Value
  | .function id name => .function (number id) name
  | v => v

/-- Whether a value, if it is a function, has a number that is `known`. -/
def Within (known : Nat → Prop) : Value → Prop
  | .function id _ => known id
  | _ => True

/-- Whether a value is no function that was declared. -/
def Plain (v : Value) : Prop :=
  v.Within fun _ => False

variable {number : Nat → Nat} {known : Nat → Prop} {v : Value}

@[simp] theorem renumbered_id (v : Value) : v.renumbered id = v := by
  cases v <;> rfl

@[simp] theorem type_renumbered (v : Value) : (v.renumbered number).type = v.type := by
  cases v <;> rfl

@[simp] theorem truthy_renumbered (v : Value) : (v.renumbered number).truthy = v.truthy := by
  cases v <;> rfl

@[simp] theorem printed?_renumbered (v : Value) :
    (v.renumbered number).printed? = v.printed? := by
  cases v <;> rfl

@[simp] theorem printed_renumbered (v : Value) : (v.renumbered number).printed = v.printed := by
  simp [printed]

@[simp] theorem renumbered_eq_nil {v : Value} : v.renumbered number = .nil ↔ v = .nil := by
  cases v <;> simp [renumbered]

theorem Within.mono {known' : Nat → Prop} (h : v.Within known)
    (hknown : ∀ id, known id → known' id) : v.Within known' := by
  cases v with
  | function id name => exact hknown id h
  | _ => trivial

/-- Every value has a number of the kind that all have. -/
theorem within_true (v : Value) : v.Within fun _ => True := by
  cases v <;> trivial

theorem Plain.within (h : v.Plain) : v.Within known :=
  Within.mono h fun _ => False.elim

theorem plain_of_type (h : v.type ≠ .function) : v.Plain := by
  cases v with
  | function id name => exact h rfl
  | _ => trivial

/-- A value is the same where its function keeps its `number`. -/
theorem renumbered_eq_self (h : v.Within fun id => number id = id) : v.renumbered number = v := by
  cases v with
  | function id name => exact congrArg (Value.function · name) h
  | _ => rfl

theorem Plain.renumbered_eq (h : v.Plain) : v.renumbered number = v :=
  renumbered_eq_self h.within

/-- Distinct functions stay distinct, so what is `equal` stays so and what is not does not become
    so. -/
theorem equal_renumbered
    (hinj : ∀ {i j : Nat}, known i → known j → number i = number j → i = j)
    {v w : Value} (hv : v.Within known) (hw : w.Within known) :
    (v.renumbered number).equal (w.renumbered number) = v.equal w := by
  cases v with
  | function i a =>
    cases w with
    | function j b =>
      have hiff : number i = number j ↔ i = j := ⟨hinj hv hw, congrArg number⟩
      simp [renumbered, equal, hiff]
    | _ => rfl
  | _ => cases w <;> rfl

end Value

namespace Operation

variable {number : Nat → Nat} {known : Nat → Prop} {op : Operator} {left right v : Value}

theorem onNumbers_renumbered {f : Float → Float → Except Hindrance Value} :
    onNumbers op f (left.renumbered number) (right.renumbered number) =
      onNumbers op f left right := by
  cases left <;> cases right <;> rfl

theorem onNumbersOrStrings_renumbered {f : Float → Float → Value} {g : String → String → Value} :
    onNumbersOrStrings op f g (left.renumbered number) (right.renumbered number) =
      onNumbersOrStrings op f g left right := by
  cases left <;> cases right <;> rfl

theorem equality_renumbered
    (hinj : ∀ {i j : Nat}, known i → known j → number i = number j → i = j)
    (hl : left.Within known) (hr : right.Within known) :
    equality op (left.renumbered number) (right.renumbered number) = equality op left right := by
  simp [equality, Value.equal_renumbered hinj hl hr]

/-- `binary` on functions under other numbers. -/
theorem binary_renumbered
    (hinj : ∀ {i j : Nat}, known i → known j → number i = number j → i = j)
    (hl : left.Within known) (hr : right.Within known) :
    binary op (left.renumbered number) (right.renumbered number) = binary op left right := by
  cases op <;>
    simp only [binary, order, onNumbers_renumbered, onNumbersOrStrings_renumbered,
      equality_renumbered hinj hl hr]

theorem negate_renumbered : negate op (v.renumbered number) = negate op v := by
  cases v <;> rfl

@[simp] theorem decides_renumbered : decides op (v.renumbered number) = decides op v := by
  simp [decides]

/-! ## Results -/

theorem type_of_onNumbersOrStrings {f : Float → Float → Value} {g : String → String → Value}
    (h : onNumbersOrStrings op f g left right = .ok v)
    (hf : ∀ x y, (f x y).type ≠ .function) (hg : ∀ s t, (g s t).type ≠ .function) :
    v.type ≠ .function := by
  unfold onNumbersOrStrings at h
  split at h
  · cases h; exact hf _ _
  · cases h; exact hg _ _
  · cases h

theorem type_of_onNumbers {f : Float → Float → Except Hindrance Value}
    (hf : ∀ {x y : Float}, f x y = .ok v → v.type ≠ .function)
    (h : onNumbers op f left right = .ok v) : v.type ≠ .function := by
  unfold onNumbers at h
  split at h
  · exact hf h
  · cases h

theorem type_of_map {α : Type} {f : α → Value} {r : Except Hindrance α} (h : r.map f = .ok v)
    (hf : ∀ a, (f a).type ≠ .function) : v.type ≠ .function := by
  cases r with
  | ok a => cases h; exact hf a
  | error e => cases h

theorem type_of_quotient {x y : Float} (h : quotient x y = .ok v) : v.type ≠ .function := by
  unfold quotient at h
  split at h
  · cases h
  · exact type_of_map h fun _ => nofun

/-- No `binary` operation has a function for its value. -/
theorem type_of_binary (h : binary op left right = .ok v) : v.type ≠ .function := by
  cases op with
  | eq => exact type_of_map h fun _ => nofun
  | ne => exact type_of_map h fun _ => nofun
  | add => exact type_of_onNumbersOrStrings h (fun _ _ => nofun) fun _ _ => nofun
  | sub => exact type_of_onNumbers (fun hf => by cases hf; nofun) h
  | mul => exact type_of_onNumbers (fun hf => by cases hf; nofun) h
  | div => exact type_of_onNumbers type_of_quotient h
  | lt => exact type_of_onNumbersOrStrings h (fun _ _ => nofun) fun _ _ => nofun
  | gt => exact type_of_onNumbersOrStrings h (fun _ _ => nofun) fun _ _ => nofun
  | le => exact type_of_onNumbersOrStrings h (fun _ _ => nofun) fun _ _ => nofun
  | ge => exact type_of_onNumbersOrStrings h (fun _ _ => nofun) fun _ _ => nofun
  | neg => cases h
  | not => cases h
  | and => cases h
  | or => cases h

theorem type_of_negate {operand : Value} (h : negate op operand = .ok v) :
    v.type ≠ .function := by
  unfold negate at h
  split at h
  · cases h; nofun
  · split at h
    · cases h; nofun
    · cases h

end Operation

/-! ## What a fault is about -/

/-- The word that a fault of a run is about: the name that is not bound, the operator that cannot be
    applied, or the parenthesis that opens a call. -/
def Cause.subject? : Cause → Option Word
  | .undefinedVariable name => some (.name name)
  | .typeMismatch (.negation _) => some (.operator Operator.neg.sign)
  | .typeMismatch (.operands op _ _) => some (.operator op.spelling)
  | .typeMismatch (.comparison op _ _) => some (.operator op.spelling)
  | .divisionByZero => some (.operator Operator.div.spelling)
  | .arity _ _ _ => some (.mark "(")
  | .notCallable _ => some (.mark "(")
  | .invalidCharacter _ | .unterminatedString | .violation _ _ | .worded _ _ => none

namespace Operation

variable {op : Operator} {left right operand : Value} {cause : Cause}

theorem subject_of_onNumbersOrStrings {f : Float → Float → Value} {g : String → String → Value}
    (h : onNumbersOrStrings op f g left right = .error (.fault cause)) :
    cause.subject? = some (.operator op.spelling) := by
  unfold onNumbersOrStrings mismatched at h
  split at h
  · cases h
  · cases h
  · cases h; rfl

theorem subject_of_onNumbers {f : Float → Float → Except Hindrance Value}
    (hf : ∀ {x y : Float}, f x y = .error (.fault cause) →
      cause.subject? = some (.operator op.spelling))
    (h : onNumbers op f left right = .error (.fault cause)) :
    cause.subject? = some (.operator op.spelling) := by
  unfold onNumbers mismatched at h
  split at h
  · exact hf h
  · cases h; rfl

theorem subject_of_equality {f : Bool → Value}
    (h : (equality op left right).map f = .error (.fault cause)) :
    cause.subject? = some (.operator op.spelling) := by
  unfold equality at h
  split at h
  · cases h; rfl
  · cases h

theorem subject_of_quotient {x y : Float} (h : quotient x y = .error (.fault cause)) :
    cause.subject? = some (.operator Operator.div.spelling) := by
  unfold quotient divide at h
  split at h
  · cases h; rfl
  · cases h

/-- A fault of a `binary` operation is about its operator. -/
theorem subject_of_binary (h : binary op left right = .error (.fault cause)) :
    cause.subject? = some (.operator op.spelling) := by
  cases op with
  | eq => exact subject_of_equality h
  | ne => exact subject_of_equality h
  | add => exact subject_of_onNumbersOrStrings h
  | sub => exact subject_of_onNumbers (fun hf => by cases hf) h
  | mul => exact subject_of_onNumbers (fun hf => by cases hf) h
  | div => exact subject_of_onNumbers subject_of_quotient h
  | lt => exact subject_of_onNumbersOrStrings h
  | gt => exact subject_of_onNumbersOrStrings h
  | le => exact subject_of_onNumbersOrStrings h
  | ge => exact subject_of_onNumbersOrStrings h
  | neg => cases h
  | not => cases h
  | and => cases h
  | or => cases h

/-- A fault of a negation is about its `sign`. -/
theorem subject_of_negate (h : negate op operand = .error (.fault cause)) :
    cause.subject? = some (.operator op.sign) := by
  unfold negate at h
  split at h
  · cases h
  · rename_i hop
    -- every other operator is spelled like the one for numbers
    have hsign : op.sign = Operator.neg.sign := by cases op <;> simp_all [Operator.sign]
    split at h
    · cases h
    · cases h; simp [Cause.subject?, hsign]

end Operation

end Scripting
