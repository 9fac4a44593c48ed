import Scripting.Machine
import Scripting.Proofs.Number.Printed

set_option autoImplicit false

/-! # How a run may end

A program that was read may be stopped by a fault of its own, and by the bounds of a run, but never
by a misplaced part: its `Stop` is `Expected`. For the operations this is settled here: an operator
in a place for which it is made is hindered by a fault only, no division has a zero for its divisor,
and every value has a text to be printed. -/

namespace Scripting

/-! ## Stops -/

/-- The classes of faults for which a text is refused. -/
def FaultClass.ofTexts : List FaultClass :=
  [.invalidCharacter, .unterminatedString, .grammatical]

/-- The classes of faults that stop a run. -/
def FaultClass.ofRuns : List FaultClass :=
  [.undefinedVariable, .typeMismatch, .divisionByZero, .arity, .notCallable]

/-- Whether running a text may stop so, where its input ends as `i` tells. -/
inductive Stop.Expected (i : InputEnd) : Stop → Prop
  | refused {f : Fault} (h : f.cause.faultClass ∈ FaultClass.ofTexts) : Expected i (.fault f)
  | fault {f : Fault} (h : f.cause.faultClass ∈ FaultClass.ofRuns) : Expected i (.fault f)
  | exhausted : Expected i .exhausted
  | unfinished : Expected i .unfinished
  | interrupted (h : i = .interrupts) : Expected i .interrupted

/-! ## Operations -/

/-- Whether an operation is hindered by a fault, and not by a misplaced part. -/
def Hindrance.Expected : Hindrance → Prop
  | .fault cause => cause.faultClass ∈ FaultClass.ofRuns
  | .misplaced _ => False

namespace Operation

variable {op : Operator} {left right : Value} {h : Hindrance}

theorem expected_of_onNumbers {f : Float → Float → Except Hindrance Value}
    (hf : ∀ {x y : Float}, f x y = .error h → h.Expected)
    (hop : onNumbers op f left right = .error h) : h.Expected := by
  unfold onNumbers at hop
  split at hop
  · exact hf hop
  · cases hop
    simp [Hindrance.Expected, Cause.faultClass, FaultClass.ofRuns]

theorem expected_of_onNumbersOrStrings {f : Float → Float → Value} {g : String → String → Value}
    (hop : onNumbersOrStrings op f g left right = .error h) : h.Expected := by
  unfold onNumbersOrStrings at hop
  split at hop
  · simp at hop
  · simp at hop
  · cases hop
    simp [Hindrance.Expected, Cause.faultClass, FaultClass.ofRuns]

theorem expected_of_equality {f : Bool → Value}
    (hop : (equality op left right).map f = .error h) : h.Expected := by
  unfold equality at hop
  split at hop
  · cases hop
    simp [Hindrance.Expected, Cause.faultClass, FaultClass.ofRuns]
  · simp [Except.map] at hop

/-- `quotient` finds a zero before anything is divided by it. -/
theorem expected_of_quotient {x y : Float} (hop : quotient x y = .error h) : h.Expected := by
  unfold quotient at hop
  split at hop
  · cases hop
    simp [Hindrance.Expected, Cause.faultClass, FaultClass.ofRuns]
  · rename_i hzero
    simp [divide, hzero, Except.map] at hop

/-- A binary operator, one with a `precedence?`, is hindered by a fault only. -/
theorem expected_of_binary (hbinary : op.precedence?.isSome = true)
    (hop : binary op left right = .error h) : h.Expected := by
  cases op with
  | eq => exact expected_of_equality hop
  | ne => exact expected_of_equality hop
  | add => exact expected_of_onNumbersOrStrings hop
  | sub => exact expected_of_onNumbers (by simp) hop
  | mul => exact expected_of_onNumbers (by simp) hop
  | div => exact expected_of_onNumbers expected_of_quotient hop
  | lt => exact expected_of_onNumbersOrStrings hop
  | gt => exact expected_of_onNumbersOrStrings hop
  | le => exact expected_of_onNumbersOrStrings hop
  | ge => exact expected_of_onNumbersOrStrings hop
  | neg => simp [Operator.precedence?] at hbinary
  | not => simp [Operator.precedence?] at hbinary
  | and => simp [Operator.precedence?] at hbinary
  | or => simp [Operator.precedence?] at hbinary

theorem expected_of_negate {operand : Value} (hop : negate op operand = .error h) :
    h.Expected := by
  unfold negate at hop
  split at hop
  · simp at hop
  · split at hop
    · simp at hop
    · cases hop
      simp [Hindrance.Expected, Cause.faultClass, FaultClass.ofRuns]

end Operation

/-! ## Printing -/

/-- Every value has a text, `Value.printed?`. -/
theorem Value.isSome_printed? (v : Value) : v.printed?.isSome = true := by
  cases v with
  | num x => exact Number.isSome_printed? x
  | bool b => cases b <;> rfl
  | _ => rfl

end Scripting
