import Scripting.Machine

set_option autoImplicit false

/-! # Evaluation

How expressions and statements are carried out in a scope. A block runs in a scope of its own inside
the one around it; a call runs in a scope inside the one its function was declared in. A statement
ends with a `Signal` that tells how control leaves it.

Every part is carried out with the means to carry out the parts inside it, one level further in
(`Engine`); the levels are stacked on one another at the end, by `Engine.tower`. Two bounds keep
every run finite: how deeply evaluations may be nested in one another, calls included (`depth`), and
how many rounds a loop may take (`rounds`). Both end a run in a way of their own, and neither has
any other effect. -/

namespace Scripting

/-! ## Signals -/

/-- How control leaves a statement: on to the next one, out of or back into a loop, or out of a
    function with a value. -/
inductive Signal where
  | normal
  | jump (which : Jump)
  | returned (value : Value)
  deriving DecidableEq

/-- The value of a call whose body ends with a signal. A function that ends without a return gives
    `nil`. -/
def Signal.result : Signal → Value
  | .returned value => value
  | _ => .nil

/-! ## Parts -/

namespace Run

/-- Run statements in order by `execute`, up to the first whose signal is not `normal`, and give
    that signal. -/
def sequence (execute : Stmt → Run Signal) : List Stmt → Run Signal
  | [] => return .normal
  | s :: rest => do
    match ← execute s with
    | .normal => sequence execute rest
    | signal => return signal

/-- Evaluate expressions in order by `evaluate`. -/
def values (evaluate : Expr → Run Value) : List Expr → Run (List Value)
  | [] => return []
  | e :: rest => do
    let value ← evaluate e
    let more ← values evaluate rest
    return value :: more

/-- Run `body` while `test` holds. A jump out of the loop ends it, a return goes on outward. -/
def repeatWhile (test : Run Value) (body : Run Signal) : Nat → Run Signal
  | 0 => throw .unfinished
  | rounds + 1 => do
    let value ← test
    if value.truthy then
      match ← body with
      | .jump .leave => return .normal
      | .returned v => return .returned v
      | _ => repeatWhile test body rounds
    else
      return .normal

/-- Carry out the body of `f` in a new scope that binds its parameters to the `arguments`. -/
def enter (execute : Nat → Stmt → Run Signal) (f : Function) (arguments : List Value) :
    Run Signal := do
  let scope ← openScope f.closure
  defineAll scope f.parameters arguments
  match f.body with
  | .block statements _ => sequence (execute scope) statements
  | other => throw (.misplaced (.body other.kind))

/-- Call the value `callee` with `arguments` at the position `p`. The value of a call of a declared
    function is what `conclude` makes of the signal with which its body ends. -/
def call (conclude : Signal → Run Value) (execute : Nat → Stmt → Run Signal) (callee : Value)
    (arguments : List Value) (p : Position) : Run Value := do
  match callee with
  | .builtin b =>
    if arguments.length = b.arity then b.apply arguments
    else fail (.arity b.name b.arity arguments.length) p
  | .function id _ =>
    let f ← function id
    if arguments.length = f.parameters.length then
      record f.name arguments p
      let signal ← enter execute f arguments
      conclude signal
    else
      fail (.arity f.name f.parameters.length arguments.length) p
  | other => fail (.notCallable other.type) p

end Run

open Run

/-- The parts of a run that contain one another, as they are carried out at some level: evaluating
    an expression in a scope, executing a statement in a scope, and calling a value. -/
structure Engine where
  evaluate : Nat → Expr → Run Value
  execute : Nat → Stmt → Run Signal
  call : Value → List Value → Position → Run Value

/-- Evaluate an expression in a scope, and the parts of it by the means of `g`. -/
def Expr.evaluateBy (g : Engine) (scope : Nat) : Expr → Run Value
  | .literal value _ => return value
  | .grouping inner _ => g.evaluate scope inner
  | .identifier name p => lookup scope name p
  | .assignment name e p => do
    let value ← g.evaluate scope e
    assign scope name value p
    return value
  | .unary op operand p => do
    let value ← g.evaluate scope operand
    ofExcept p (Operation.negate op value)
  | .logical op left right _ => do
    let value ← g.evaluate scope left
    if Operation.decides op value then return value
    else g.evaluate scope right
  | .binary op left right p => do
    let l ← g.evaluate scope left
    let r ← g.evaluate scope right
    ofExcept p (Operation.binary op l r)
  | .call callee arguments p => do
    let f ← g.evaluate scope callee
    let vs ← values (g.evaluate scope) arguments
    g.call f vs p
  | .stray written => throw (.misplaced (.expression written))

/-- Execute a statement in a scope, and the parts of it by the means of `g`. -/
def Stmt.executeBy (g : Engine) (rounds scope : Nat) : Stmt → Run Signal
  | .expression e _ => do
    let _ ← g.evaluate scope e
    return .normal
  | .print e _ => do
    let value ← g.evaluate scope e
    Run.print value
    return .normal
  | .declaration name initializer _ => do
    let value ← match initializer with
      | some e => g.evaluate scope e
      | none => pure .nil
    define scope name value
    return .normal
  | .block statements _ => do
    let inner ← openScope scope
    sequence (g.execute inner) statements
  | .conditional condition thenBranch elseBranch _ => do
    let value ← g.evaluate scope condition
    if value.truthy then g.execute scope thenBranch
    else match elseBranch with
      | some other => g.execute scope other
      | none => return .normal
  | .loop condition body _ =>
    repeatWhile (g.evaluate scope condition) (g.execute scope body) rounds
  | .function name parameters body _ => do
    declare { name, parameters, body, closure := scope }
    return .normal
  | .result value _ => do
    match value with
    | some e =>
      let v ← g.evaluate scope e
      return .returned v
    | none => return .returned .nil
  | .jump which _ => return .jump which
  | .stray kind _ => throw (.misplaced (.statement kind))

/-! ## Levels -/

/-- The means of a run with room for `depth` levels of evaluation inside one another, in which calls
    end as `conclude` tells. -/
def Engine.tower (conclude : Signal → Run Value) (rounds : Nat) : Nat → Engine
  | 0 =>
    { evaluate := fun _ _ => throw .exhausted
      execute := fun _ _ => throw .exhausted
      call := Run.call conclude fun _ _ => throw .exhausted }
  | depth + 1 =>
    { evaluate := fun scope e => e.evaluateBy (tower conclude rounds depth) scope
      execute := fun scope s => s.executeBy (tower conclude rounds depth) rounds scope
      call := Run.call conclude fun scope s =>
        s.executeBy (tower conclude rounds depth) rounds scope }

/-- The means of a run with room for `depth` levels. The value of a call is the one that its body
    returns, `Signal.result`. -/
def engine (rounds depth : Nat) : Engine :=
  .tower (fun signal => return signal.result) rounds depth

/-- Evaluate an expression in a scope, with room for `depth` levels of evaluation inside one
    another. -/
def Expr.evaluate (rounds depth scope : Nat) (e : Expr) : Run Value :=
  (engine rounds depth).evaluate scope e

/-- Execute a statement in a scope, with room for `depth` levels of evaluation inside one
    another. -/
def Stmt.execute (rounds depth scope : Nat) (s : Stmt) : Run Signal :=
  (engine rounds depth).execute scope s

end Scripting
