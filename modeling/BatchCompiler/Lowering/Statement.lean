import BatchCompiler.Lowering.Expression
import BatchCompiler.Scope.Basic
import BatchCompiler.Target.Frame

/-!
# Lowering statements

Loops become a label and a conditional that jumps back to it; a call of a declared function becomes
a call of its label, with the return register and the frame number before the arguments; any other
call runs a command. The elements of a list literal are assigned one by one.
-/

namespace BatchCompiler.Lowering

open Target

structure Context where
  settings : Settings
  table : ScopeTable
  scope : String := "global"
  function : String := ""

structure Progress where
  labels : Nat := 0
  remarks : List Remark := []

abbrev Lower := ExceptT Failure (StateM Progress)

def liftLower {α : Type} : Except Failure α → Lower α
  | .ok a => pure a
  | .error e => throw e

def remark (c : Context) (w : Warning) (span : Span) (message : String) : Lower Unit :=
  modify fun s => { s with remarks := s.remarks ++ c.settings.remark w span message }

def newLabel : Lower String := do
  let s ← get
  set { s with labels := s.labels + 1 }
  pure ("__L" ++ Number.natText s.labels)

/-- The variable a called function writes its result to. -/
def returnRegister : String := "__ret"

/-- The frame number every call passes: recursive calls share their variables. -/
def frameNumber : String := "0"

mutual

/-- Stores a value at a place, in as many statements as its form needs. -/
def lowerAssign (scope : String) (dst : Place) : Node → Except Failure (List Stmt)
  | .list _ elems => lowerElements scope dst 0 elems
  | n@(.string ..) | n@(.strCompare ..) | n@(.concat ..) | n@(.call ..) | n@(.ident ..)
  | n@(.subscript ..) => do
    let value ← lowerText scope n
    pure [.setText dst value]
  | n@(.bool ..) | n@(.number ..) | n@(.float ..) | n@(.unary ..) | n@(.binary ..) => do
    let e ← lowerArith scope n
    pure [.setNumber dst e]
  | .absent => throw (.crash .absentPart)
  | n => reject scope n (.notAValue n.shape)

def lowerElements (scope : String) (dst : Place) (position : Nat) :
    List Node → Except Failure (List Stmt)
  | [] => pure []
  | e :: rest => do
    let first ← lowerAssign scope (.item dst (.int (Int64.ofNat position))) e
    let rest ← lowerElements scope dst (position + 1) rest
    pure (first ++ rest)

end

def lowerCall (c : Context) (span : Span) (n callee : Node) (args : List Node) : Lower (List Stmt) :=
  match callee with
  | .ident _ name => do
    let texts ← liftLower (args.mapM (lowerText c.scope))
    if c.table.isFunction name then do
      if name = c.function then
        remark c .recursion span
          ("Recursive call to '" ++ name ++ "' shares its locals with the caller")
      pure [.call (.text (":" ++ name))
        ([.text returnRegister] :: [.text frameNumber] :: texts)]
    else do
      remark c .externCall span
        ("'" ++ name ++ "' is not a declared function and runs as a command")
      pure [.call (.text name) texts]
  | .absent => throw (.crash .absentPart)
  | other => liftLower (reject c.scope n (.calleeNotAName other.shape))

def isSilent : Node → Bool
  | .comment .. | .empty .. => true
  | _ => false

def isReturn : Node → Bool
  | .ret .. => true
  | _ => false

mutual

def lowerStatement (c : Context) : Node → Lower (List Stmt)
  | .absent => pure []
  | .comment _ text => pure [.comment text]
  | .block _ stmts _ => lowerStatements c false stmts
  | n@(.call span callee args) => lowerCall c span n callee args
  | .assign _ lhs rhs => do
    let dst ← liftLower (lowerPlace c.scope lhs)
    liftLower (lowerAssign c.scope dst rhs)
  | .branch _ cond thenBody elseBody => do
    let cond ← liftLower (lowerCondition c.scope cond)
    let thenStmts ← lowerStatement c thenBody
    if elseBody.isAbsent then pure [.whenTrue cond thenStmts]
    else
      let elseStmts ← lowerStatement c elseBody
      pure [.choose cond thenStmts elseStmts]
  | .loop _ cond body => do
    let label ← newLabel
    let cond ← liftLower (lowerCondition c.scope cond)
    let stmts ← lowerStatement c body
    pure [.label label, .whenTrue cond (stmts ++ [.jump label])]
  | n@(.ret _ e) => do
    if e.isAbsent then pure [.jump endOfFile]
    else if c.function = "" then liftLower (reject c.scope n .valueOutsideFunction)
    else
      let stmts ← liftLower (lowerAssign c.scope (.slot returnSlot) e)
      pure (stmts ++ [.jump endOfFile])
  | .globals span _ => do
    if c.function ≠ "" then
      remark c .frameGlobal span ("'global' inside '" ++ c.function ++ "' does not bypass its frame")
    pure []
  | .empty span => do
    remark c .pedantic span "Empty statement"
    pure []
  | n => liftLower (reject c.scope n (.notAStatement n.shape))

/-- `returned` tells that a return came before and its unreachable code was not remarked on yet. -/
def lowerStatements (c : Context) (returned : Bool) : List Node → Lower (List Stmt)
  | [] => pure []
  | n :: rest => do
    if n.isAbsent then throw (.crash .absentPart)
    let reached := returned && !isSilent n
    if reached then remark c .unreachableCode n.span "Unreachable code"
    let first ← lowerStatement c n
    let rest ← lowerStatements c (isReturn n || (returned && !reached)) rest
    pure (first ++ rest)

end

def setup : List Stmt :=
  [.raw "@echo off", .raw "setlocal EnableDelayedExpansion", .raw "setlocal EnableExtensions"]

def parameterNames : List Node → Except Failure (List String)
  | [] => pure []
  | .ident _ name :: rest => do
    let rest ← parameterNames rest
    pure (name :: rest)
  | _ :: _ => throw (.crash .notAName)

def lowerFunction (c : Context) (span : Span) (name : String) (params : List Node) (body : Node) :
    Lower (List Stmt) := do
  match c.table.functionScope? name with
  | none => throw (.rejected { problem := .unknownFunction name, span := span, scope := "global" })
  | some scope => do
    let stmts ← lowerStatement { c with scope := scope.name, function := name } body
    match inFrame stmts with
    | .error e => throw (.crash e)
    | .ok stmts => do
      let params ← liftLower (parameterNames params)
      pure (assemble name params stmts)

def lowerFunctions (c : Context) : List Node → Lower (List Stmt)
  | [] => pure []
  | .func span name params body :: rest => do
    let first ← lowerFunction c span name params body
    let rest ← lowerFunctions c rest
    pure (first ++ rest)
  | _ :: rest => lowerFunctions c rest

/-- Top-level statements run first, in source order; the functions follow. -/
def lowerItems (c : Context) (items : List Node) : Lower Program := do
  if items.any Node.isAbsent then throw (.crash .absentPart)
  let stmts ← lowerStatements c false (items.filter fun n => !n.isFunc)
  let funcs ← lowerFunctions c (items.filter Node.isFunc)
  pure (setup ++ stmts ++ funcs)

def lowerRoot (c : Context) : Node → Lower Program
  | .absent => lowerItems c []
  | .block _ stmts _ => lowerItems c stmts
  | n => liftLower (reject c.scope n (.rootNotBlock n.shape))

/-- The target program of a tree and the remarks made on the way, also when lowering fails. -/
def lower (settings : Settings) (table : ScopeTable) (root : Node) :
    Except Failure Program × List Remark :=
  let (result, s) := (lowerRoot { settings := settings, table := table } root).run {}
  (result, s.remarks)

end BatchCompiler.Lowering
