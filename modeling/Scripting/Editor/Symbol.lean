import Scripting.Grammar.Statement

set_option autoImplicit false

/-! # Symbols and diagnostics

What an editor shows of a program without running it: the functions and variables that it declares
at its outermost level (`symbols`), and the first fault that keeps it from being a program
(`Diagnostic.ofFault`). Positions are counted from zero here. -/

namespace Scripting.Editor

/-- A stretch of text on one line. -/
structure Range where
  line : Int
  first : Int
  last : Int
  deriving DecidableEq, Repr

/-- What a symbol stands for. -/
inductive SymbolKind where
  | function | variable
  deriving DecidableEq, Repr

/-- A name that a document declares at its outermost level. `detail` is the declaration in short. -/
structure Symbol where
  name : String
  kind : SymbolKind
  uri : String
  line : Int
  column : Int
  detail : String
  deriving DecidableEq

/-- The range of `s`: as long as its declaration in short, `detail`. -/
def Symbol.range (s : Symbol) : Range :=
  ⟨s.line, s.column, s.column + s.detail.length⟩

/-- The declared `name` as a symbol of the document `uri`. -/
def Symbol.declared (uri name : String) (kind : SymbolKind) (detail : String) (p : Position) :
    Symbol :=
  { name, kind, uri, detail, line := p.line - 1, column := p.column - 1 }

/-- The symbol that a statement of the document `uri` declares. -/
def Symbol.ofStatement? (uri : String) : Stmt → Option Symbol
  | .function name parameters _ p =>
    let detail := "fn " ++ name ++ "(" ++ String.intercalate ", " parameters ++ ")"
    some (.declared uri name .function detail p)
  | .declaration name _ p => some (.declared uri name .variable s!"let {name}" p)
  | _ => none

/-- The symbols of the program `p`, in its order. -/
def symbols (uri : String) (p : Program) : List Symbol :=
  p.filterMap (Symbol.ofStatement? uri)

/-- Whether a statement declares a symbol: a function with its parameters, or a variable. The symbol
    stands where the statement stands. -/
inductive Symbol.DeclaredBy (uri : String) : Symbol → Stmt → Prop
  | function (name : String) (parameters : List String) (body : Stmt) (p : Position) :
    DeclaredBy uri
      { name, kind := .function, uri, line := p.line - 1, column := p.column - 1
        detail := "fn " ++ name ++ "(" ++ String.intercalate ", " parameters ++ ")" }
      (.function name parameters body p)
  | variable (name : String) (value : Option Expr) (p : Position) :
    DeclaredBy uri
      { name, kind := .variable, uri, line := p.line - 1, column := p.column - 1
        detail := "let " ++ name }
      (.declaration name value p)

theorem Symbol.ofStatement?_eq_some_iff {uri : String} {s : Symbol} {st : Stmt} :
    Symbol.ofStatement? uri st = some s ↔ s.DeclaredBy uri st := by
  constructor
  · intro h
    unfold ofStatement? at h
    split at h <;> cases h
    · exact .function _ _ _ _
    · exact .variable _ _ _
  · rintro (⟨name, parameters, body, p⟩ | ⟨name, value, p⟩) <;> rfl

/-- The symbols of `p` are those that its statements declare, and not the statements inside of
    these. -/
theorem mem_symbols {uri : String} {p : Program} {s : Symbol} :
    s ∈ symbols uri p ↔ ∃ st ∈ p, s.DeclaredBy uri st := by
  simp only [symbols, List.mem_filterMap, Symbol.ofStatement?_eq_some_iff]

/-- The symbols stand in the order of the statements that declare them: those of `p` before those of
    `q`. -/
theorem symbols_append (uri : String) (p q : Program) :
    symbols uri (p ++ q) = symbols uri p ++ symbols uri q :=
  List.filterMap_append

/-- A message about a stretch of a document. -/
structure Diagnostic where
  range : Range
  message : String
  deriving DecidableEq

/-- The zero-based form of a line or column, where one that is missing counts as the first. -/
def fromZero (n : Option Int) : Int :=
  max (n.getD 1 - 1) 0

/-- The fault `f` as a message about the character it points at. -/
def Diagnostic.ofFault (f : Fault) : Diagnostic :=
  let column := fromZero f.place.column
  { range := ⟨fromZero f.place.line, column, column + 1⟩
    message := s!"{f.cause.faultClass.stage}: {f.cause.message}" }

end Scripting.Editor
