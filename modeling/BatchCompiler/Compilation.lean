import BatchCompiler.Lowering.Statement
import BatchCompiler.Scope.Declarations
import BatchCompiler.Script.Render
import BatchCompiler.Source.Scanner
import BatchCompiler.Syntax.Flattening
import BatchCompiler.Syntax.Parser.Statement

/-!
# Compilation

The stages from source text to script, in one setting: a stage succeeds or fails, and in both cases
the remarks it made are kept.
-/

namespace BatchCompiler

inductive Failure where
  | diagnostic (d : Diagnostic)
  | lowering (e : Lowering.Error)
  | rendering (e : Script.RenderError)
  | crash (why : Crash)
deriving DecidableEq, Repr

/-- What a failure says at a place in the source, if it has one. -/
def Failure.diagnostic? : Failure → Option Diagnostic
  | .diagnostic d => some d
  | .lowering e => some e.diagnostic
  | _ => none

def Failure.text (files : Sources) : Failure → String
  | .diagnostic d => d.text files
  | .lowering e => e.diagnostic.text files
  | .rendering e => e.message
  | .crash why => why.message

def Failure.report (files : Sources) (f : Failure) : String :=
  match f.diagnostic? with
  | some d => d.report files
  | none => ""

abbrev Stage := ExceptT Failure (StateM (List Remark))

namespace Stage

def note (rs : List Remark) : Stage Unit := modify fun log => log ++ rs

def tokens (settings : Settings) (file : Int) (source : List Char) : Stage (List Token) := do
  let (ts, s) := (Scanner.start settings file source).tokens
  note s.remarks
  match s.error with
  | some d => throw (.diagnostic d)
  | none => pure ts

def failureOfStop : Syntax.Stop → Failure
  | .rejected span problem => .diagnostic { span := span, message := problem.message }
  | .endless => .crash .endlessTokens

/-- The tree of a token list and the settings its directives lead to. -/
def tree (settings : Settings) (ts : List Token) : Stage (Node × Settings) := do
  match Syntax.parse? settings ts with
  | none => throw (.crash .noTokens)
  | some p => do
    note p.remarks
    match p.result with
    | .ok root => pure (root, p.settings)
    | .error why => throw (failureOfStop why)

def scopes (root : Node) : Stage ScopeTable :=
  match ScopeTable.build root with
  | .ok t => pure t
  | .error (.rejected span problem) => throw (.diagnostic { span := span, message := problem.message })
  | .error (.crash why) => throw (.crash why)

def flatTree (table : ScopeTable) (root : Node) : Stage (Node × ScopeTable) :=
  match Syntax.flatten table root with
  | .ok r => pure r
  | .error why => throw (.crash why)

def flatTreeIfEnabled (settings : Settings) (table : ScopeTable) (root : Node) :
    Stage (Node × ScopeTable) :=
  if settings.feature .split then flatTree table root else pure (root, table)

def target (settings : Settings) (table : ScopeTable) (root : Node) : Stage Target.Program := do
  let (result, remarks) := Lowering.lower settings table root
  note remarks
  match result with
  | .ok p => pure p
  | .error (.rejected e) => throw (.lowering e)
  | .error (.crash why) => throw (.crash why)

def script (settings : Settings) (p : Target.Program) : Stage String :=
  match Script.render settings.lineEnding p with
  | .ok text => pure text
  | .error e => throw (.rendering e)

/-- From a tree to its target program, flattened first if the settings say so. -/
def lowerTree (settings : Settings) (root : Node) : Stage Target.Program := do
  let table ← scopes root
  let (root, table) ← flatTreeIfEnabled settings table root
  target settings table root

def compile (settings : Settings) (file : Int) (source : List Char) : Stage String := do
  let ts ← tokens settings file source
  let (root, settings) ← tree settings ts
  let p ← lowerTree settings root
  script settings p

end Stage

end BatchCompiler
