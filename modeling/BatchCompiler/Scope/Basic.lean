import BatchCompiler.Number.Integer
import BatchCompiler.Source.Span

/-!
# Scopes

The names a region of a program declares, newest first. A name is declared once; later declarations
of it change nothing. Every function scope lies directly below the top-level scope.
-/

namespace BatchCompiler

inductive SymbolKind where
  | var
  | parameter
  | globalName
  | temporary
deriving DecidableEq, Repr, Inhabited

structure Symbol where
  name : String
  kind : SymbolKind
  span : Span := {}
deriving DecidableEq, Repr, Inhabited

structure Scope where
  name : String
  symbols : List Symbol := []
  counter : Nat := 0
deriving DecidableEq, Repr, Inhabited

namespace Scope

def find? (s : Scope) (name : String) : Option Symbol :=
  s.symbols.find? fun x => x.name == name

/-- Adds a symbol unless its name is there; also tells which symbol the name stands for. -/
def declare (s : Scope) (x : Symbol) : Symbol × Scope :=
  match s.find? x.name with
  | some old => (old, s)
  | none => (x, { s with symbols := x :: s.symbols })

/-- The first number from `counter` on that gives a name outside `taken`. One of the first
`taken.length + 1` candidates does. -/
def freeNumber (stem : String) (taken : List String) (counter : Nat) : Nat :=
  let free := (List.range (taken.length + 1)).find? fun k =>
    !taken.contains (stem ++ Number.natText (counter + k))
  counter + free.getD taken.length

/-- Declares a temporary whose name is neither here nor in `outer`. -/
def fresh (s : Scope) (outer : List Symbol) (stem : String) : String × Scope :=
  let n := freeNumber stem ((s.symbols ++ outer).map Symbol.name) s.counter
  let name := stem ++ Number.natText n
  (name, { (s.declare { name := name, kind := .temporary }).2 with counter := n + 1 })

end Scope

inductive Region where
  | top
  | function (name : String)
deriving DecidableEq, Repr, Inhabited

structure ScopeTable where
  top : Scope := { name := "global" }
  functions : List Scope := []
deriving DecidableEq, Repr, Inhabited

namespace ScopeTable

def functionScope? (t : ScopeTable) (name : String) : Option Scope :=
  t.functions.find? fun s => s.name == name

def isFunction (t : ScopeTable) (name : String) : Bool :=
  (t.functionScope? name).isSome

def scope? (t : ScopeTable) : Region → Option Scope
  | .top => some t.top
  | .function name => t.functionScope? name

def outer (t : ScopeTable) : Region → List Symbol
  | .top => []
  | .function _ => t.top.symbols

def lookup? (t : ScopeTable) (r : Region) (name : String) : Option Symbol :=
  match t.scope? r with
  | none => none
  | some s => s.find? name <|> (t.outer r).find? fun x => x.name == name

def setScope (t : ScopeTable) : Region → Scope → ScopeTable
  | .top, s => { t with top := s }
  | .function name, s =>
    { t with functions := t.functions.map fun f => if f.name == name then s else f }

def declare? (t : ScopeTable) (r : Region) (x : Symbol) : Option (Symbol × ScopeTable) :=
  (t.scope? r).map fun s =>
    let (found, s) := s.declare x
    (found, t.setScope r s)

def fresh? (t : ScopeTable) (r : Region) (stem : String) : Option (String × ScopeTable) :=
  (t.scope? r).map fun s =>
    let (name, s) := s.fresh (t.outer r) stem
    (name, t.setScope r s)

end ScopeTable

end BatchCompiler
