import BatchCompiler.Crash
import BatchCompiler.Scope.Basic
import BatchCompiler.Source.Diagnostic
import BatchCompiler.Syntax.Node

/-!
# The declarations of a program

Functions are recorded first, so that a call may precede the declaration of what it calls. Then
every region gets the names its statements assign or declare global.
-/

namespace BatchCompiler.ScopeTable

inductive DeclarationProblem where
  | redefinedFunction (name : String)
  | repeatedParameter (name function : String)
deriving DecidableEq, Repr

def DeclarationProblem.message : DeclarationProblem → String
  | .redefinedFunction name => "Redefinition of function '" ++ name ++ "'"
  | .repeatedParameter name function =>
    "Parameter '" ++ name ++ "' of '" ++ function ++ "' is listed more than once"

inductive BuildError where
  | rejected (span : Span) (problem : DeclarationProblem)
  | crash (why : Crash)
deriving DecidableEq, Repr

/-- The top-level items of a program: the statements of its root block, or the root itself. -/
def itemsOf : Node → List Node
  | .absent => []
  | .block _ stmts _ => stmts
  | n => [n]

def rootName? : Node → Option (Span × String)
  | .ident span name => some (span, name)
  | .subscript _ array _ => rootName? array
  | _ => none

def addParameters (function : String) (s : Scope) : List Node → Except BuildError Scope
  | [] => .ok s
  | .ident span name :: rest =>
    if (s.find? name).isSome then .error (.rejected span (.repeatedParameter name function))
    else addParameters function (s.declare { name := name, kind := .parameter, span := span }).2 rest
  | _ :: _ => .error (.crash .notAName)

def addFunctions (t : ScopeTable) : List Node → Except BuildError ScopeTable
  | [] => .ok t
  | .absent :: _ => .error (.crash .absentPart)
  | .func span name params _ :: rest =>
    if t.isFunction name then .error (.rejected span (.redefinedFunction name))
    else match addParameters name { name := name } params with
      | .error e => .error e
      | .ok s => addFunctions { t with functions := t.functions ++ [s] } rest
  | _ :: rest => addFunctions t rest

def addGlobals (s : Scope) : List Node → Except Crash Scope
  | [] => .ok s
  | .ident span name :: rest =>
    addGlobals (s.declare { name := name, kind := .globalName, span := span }).2 rest
  | _ :: _ => .error .notAName

def addNode (s : Scope) : Node → Except Crash Scope
  | .assign _ lhs _ => match rootName? lhs with
    | some (span, name) => .ok (s.declare { name := name, kind := .var, span := span }).2
    | none => .ok s
  | .globals _ names => addGlobals s names
  | _ => .ok s

def addNodes (s : Scope) : List Node → Except Crash Scope
  | [] => .ok s
  | n :: rest => match addNode s n with
    | .error e => .error e
    | .ok s => addNodes s rest

def collect (t : ScopeTable) (r : Region) (stmt : Node) : Except BuildError ScopeTable :=
  match t.scope? r with
  | none => .error (.crash .missingScope)
  | some s => match addNodes s stmt.walk with
    | .error e => .error (.crash e)
    | .ok s => .ok (t.setScope r s)

def collectItems (t : ScopeTable) : List Node → Except BuildError ScopeTable
  | [] => .ok t
  | item :: rest =>
    let step := match item with
      | .func _ name _ body => t.collect (.function name) body
      | item => t.collect .top item
    match step with
    | .error e => .error e
    | .ok t => collectItems t rest

def build (root : Node) : Except BuildError ScopeTable :=
  match addFunctions {} (itemsOf root) with
  | .error e => .error e
  | .ok t => collectItems t (itemsOf root)

end BatchCompiler.ScopeTable
