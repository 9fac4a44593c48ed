import Scripting.Number.Literal
import Scripting.Operation
import Scripting.Program
import Scripting.ScopeTree
import Scripting.Text.Lines

set_option autoImplicit false

/-! # Machines

What a running program works on (`Machine`): its scopes, the functions it has declared, the input it
has not read yet, and the output it has written. A `Run` changes the machine and ends with a result
or is stopped; what it did before a `Stop` stays done. -/

namespace Scripting

/-! ## Machines -/

/-- A declared function. `closure` is the scope it was declared in, and calls run inside that scope
    wherever they are made. -/
structure Function where
  name : String
  parameters : List String
  body : Stmt
  closure : Nat

/-- A function that does nothing. -/
def Function.idle (name : String) (parameters : List String) : Function :=
  { name, parameters, body := .block [] .unknown, closure := 0 }

/-- What a program meets that reads on behind the last line of its input. -/
inductive InputEnd where
  /-- The input is at its end and stays so. -/
  | closed
  /-- The run is broken off. -/
  | interrupts
  deriving DecidableEq, Repr

/-- The state of a run. `functions` are kept by number. `journal` is kept only where the calls of
    functions are to be recorded. -/
structure Machine where
  scopes : ScopeTree
  functions : Array Function
  input : List Char
  inputEnd : InputEnd
  output : String
  journal : Option String

namespace Machine

/-- The number of the outermost scope. -/
def globals : Nat := 0

/-- A machine with one empty scope and the given `input`. -/
def bare (input : List Char) : Machine :=
  { scopes := .root, functions := #[], input, inputEnd := .closed, output := "", journal := none }

/-- A machine on which no program has run: the builtin functions are bound in its outermost
    scope. -/
def fresh (input : List Char) : Machine :=
  let m := bare input
  { m with scopes := m.scopes.define globals Builtin.input.name (.builtin .input) }

/-- Keep the function `f`, and give the value that stands for it. -/
def keep (m : Machine) (f : Function) : Value × Machine :=
  (.function m.functions.size f.name, { m with functions := m.functions.push f })

/-- The parameters of the function that is kept under the number `id`. -/
def parameters (m : Machine) (id : Nat) : List String :=
  m.functions[id]?.elim [] (·.parameters)

end Machine

/-! ## Runs -/

/-- Why a run is stopped. -/
inductive Stop where
  /-- The program is at fault. -/
  | fault (f : Fault)
  /-- The tree is not one of a program. -/
  | misplaced (m : Misplaced)
  /-- Calls and expressions are nested more deeply than the run may go. -/
  | exhausted
  /-- A loop went on for more rounds than the run may take. -/
  | unfinished
  /-- The input was broken off. -/
  | interrupted
  deriving DecidableEq

/-- A run on a machine. -/
abbrev Run := EStateM Stop Machine

namespace Run

/-- Stop at the position `p` for a fault with the given `cause`. -/
def fail {α : Type} (cause : Cause) (p : Position) : Run α :=
  throw (.fault (.located cause p))

/-- The result of an operation, or a stop, which points at `p` if the program is at fault. -/
def ofExcept {α : Type} (p : Position) : Except Hindrance α → Run α
  | .ok a => return a
  | .error (.fault cause) => fail cause p
  | .error (.misplaced m) => throw (.misplaced m)

/-! ### Scopes and functions -/

/-- Add a scope inside the scope `i`, and give its number. -/
def openScope (i : Nat) : Run Nat :=
  modifyGet fun m => (m.scopes.size, { m with scopes := m.scopes.child i })

/-- Bind `name` to `value` in the scope `i`. -/
def define (i : Nat) (name : String) (value : Value) : Run Unit :=
  modify fun m => { m with scopes := m.scopes.define i name value }

/-- Bind names to values in the scope `i`, one after the other. -/
def defineAll (i : Nat) : List String → List Value → Run Unit
  | name :: names, value :: values => do
    define i name value
    defineAll i names values
  | _, _ => return ()

/-- The value of `name` as seen from the scope `i`. A name that is not bound is a fault at `p`. -/
def lookup (i : Nat) (name : String) (p : Position) : Run Value := do
  match (← get).scopes.get? i name with
  | some value => return value
  | none => fail (.undefinedVariable name) p

/-- Rebind `name` as seen from the scope `i`. A name that is not bound is a fault at `p`. -/
def assign (i : Nat) (name : String) (value : Value) (p : Position) : Run Unit := do
  match (← get).scopes.resolve name i with
  | some j => define j name value
  | none => fail (.undefinedVariable name) p

/-- Keep the function `f`, and bind its name in the scope in which it was declared, its
    `closure`. -/
def declare (f : Function) : Run Unit := do
  let value ← modifyGet (·.keep f)
  define f.closure f.name value

/-- The function kept under the number `id`; where there is none, `Function.idle`. -/
def function (id : Nat) : Run Function := do
  return ((← get).functions[id]?).getD (.idle "" [])

/-! ### Input and output -/

/-- Write to the output. -/
def write (text : String) : Run Unit :=
  modify fun m => { m with output := m.output ++ text }

/-- Write a value and a line end to the output. -/
def print (value : Value) : Run Unit :=
  match value.printed? with
  | some text => write (text ++ "\n")
  | none => throw (.misplaced (.text value.type))

/-- Read a line with its line feed. At the end of the input the line is empty, or the run is broken
    off, as the `inputEnd` of the machine tells. -/
def readLine : Run (List Char) := do
  let m ← get
  let (line, rest) := Text.takeLine m.input
  -- a line that is read has at least its line feed, unless the input ends with it
  if line.isEmpty && m.inputEnd = .interrupts then throw .interrupted
  set { m with input := rest }
  return line

/-- Record a call in the `journal`, where calls are recorded. -/
def record (name : String) (values : List Value) (p : Position) : Run Unit :=
  modify fun m =>
    match m.journal with
    | none => m
    | some journal =>
      let arguments := String.intercalate ", " (values.map Value.printed)
      let entry := s!"SprigInterpreter: call {name}({arguments}) on line {p.line}\n"
      { m with journal := some (journal ++ entry) }

end Run

/-! ## Builtin functions -/

/-- What asks for a line of input. -/
def inputPrompt : String := "Input: "

/-- The value of the `line` of input: a number if the line, apart from the white space around it, is
    written like one in a program, and otherwise its text without the line end. -/
def inputValue (line : List Char) : Value :=
  let text := Text.dropEndWhile (fun c => c = '\r' || c = '\n') line
  match Number.parse? (Text.trim text) with
  | some x => .num x
  | none => .str (String.ofList text)

/-- Ask for a line of input, and give its `inputValue`. At the end of the input there is no line to
    read, and the value is `nil`. -/
def Run.askLine : Run Value := do
  Run.write inputPrompt
  let line ← Run.readLine
  return if line.isEmpty then .nil else inputValue line

/-- Apply the builtin function `b` to as many arguments as it takes. -/
def Builtin.apply (b : Builtin) (arguments : List Value) : Run Value :=
  match b, arguments with
  | .input, [] => Run.askLine
  | b, arguments => throw (.misplaced (.arguments b arguments.length))

end Scripting
