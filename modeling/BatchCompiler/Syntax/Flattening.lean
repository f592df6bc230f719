import BatchCompiler.Crash
import BatchCompiler.Scope.Basic
import BatchCompiler.Syntax.Node

/-!
# Flattening

Brings every expression into the form its position asks for. Nested arithmetic in index and string
positions, and comparisons used as values, move into temporaries that are assigned just before the
statement that needs them. Inside a function an index keeps naming a top-level variable, so indices
are not moved there.
-/

namespace BatchCompiler.Syntax.Flattening

/-- The temporaries made so far and the assignments waiting for the statement they belong to. -/
structure State where
  table : ScopeTable
  region : Region := .top
  before : List Node := []

abbrev Flat := StateT State (Except Crash)

def temporaryLead : String := "__t"

def temporary (span : Span) : Flat Node := do
  let s ← get
  match s.table.fresh? s.region temporaryLead with
  | none => throw .missingScope
  | some (name, table) => do
    set { s with table := table }
    pure (.ident span name)

def push (stmt : Node) : Flat Unit :=
  modify fun s => { s with before := s.before ++ [stmt] }

def flush : Flat (List Node) := do
  let s ← get
  set { s with before := [] }
  pure s.before

/-- Assigns one or zero by the outcome of a condition. -/
def assignTruth (span : Span) (cond place : Node) : Node :=
  .branch span cond
    (.block span [.assign span place (.number span 1)] true)
    (.block span [.assign span place (.number span 0)] true)

def hoistValue (span : Span) (e : Node) : Flat Node := do
  let t ← temporary span
  push (.assign span t e)
  pure t

def hoistTruth (span : Span) (cond : Node) : Flat Node := do
  let t ← temporary span
  push (assignTruth span cond t)
  pure t

def atTop : Flat Bool := do
  return (← get).region = .top

mutual

def place : Node → Flat Node
  | .subscript span array index => do
    let array ← place array
    let index ← indexOf index
    pure (.subscript span array index)
  | .absent => throw .absentPart
  | n => pure n

def indexOf : Node → Flat Node
  | .subscript span array index => do
    let array ← place array
    let index ← indexOf index
    pure (.subscript span array index)
  | n@(.strCompare span op l r) => do
    if ← atTop then
      let l ← stringOf l
      let r ← stringOf r
      hoistTruth span (.strCompare span op l r)
    else pure n
  | n@(.binary span op l r) => do
    if ← atTop then
      if op.isRelational then
        let l ← stringOf l
        let r ← stringOf r
        hoistTruth span (.binary span op l r)
      else
        let l ← arithmetic l
        let r ← arithmetic r
        hoistValue span (.binary span op l r)
    else pure n
  | n@(.unary span op e) => do
    if ← atTop then
      let e ← arithmetic e
      hoistValue span (.unary span op e)
    else pure n
  | n@(.bool span _) => do
    if ← atTop then hoistValue span n else pure n
  | .absent => throw .absentPart
  | n => pure n

def arithmetic : Node → Flat Node
  | .subscript span array index => do
    let array ← place array
    let index ← indexOf index
    pure (.subscript span array index)
  | .unary span op e => do
    let e ← arithmetic e
    pure (.unary span op e)
  | .binary span op l r =>
    if op.isRelational then do
      let l ← stringOf l
      let r ← stringOf r
      hoistTruth span (.binary span op l r)
    else do
      let l ← arithmetic l
      let r ← arithmetic r
      pure (.binary span op l r)
  | .strCompare span op l r => do
    let l ← stringOf l
    let r ← stringOf r
    hoistTruth span (.strCompare span op l r)
  | .absent => throw .absentPart
  | n => pure n

def stringOf : Node → Flat Node
  | .subscript span array index => do
    let array ← place array
    let index ← indexOf index
    pure (.subscript span array index)
  | .concat span l r => do
    let l ← stringOf l
    let r ← stringOf r
    pure (.concat span l r)
  | .call span callee args => do
    let args ← strings args
    pure (.call span callee args)
  | .strCompare span op l r => do
    let l ← stringOf l
    let r ← stringOf r
    hoistTruth span (.strCompare span op l r)
  | .binary span op l r =>
    if op.isRelational then do
      let l ← stringOf l
      let r ← stringOf r
      hoistTruth span (.binary span op l r)
    else do
      let l ← arithmetic l
      let r ← arithmetic r
      hoistValue span (.binary span op l r)
  | .unary span op e => do
    let e ← arithmetic e
    hoistValue span (.unary span op e)
  | .absent => throw .absentPart
  | n => pure n

def strings : List Node → Flat (List Node)
  | [] => pure []
  | n :: rest => do
    let n ← stringOf n
    let rest ← strings rest
    pure (n :: rest)

end

/-- Conditions keep one comparison in place; other arithmetic is compared with zero. -/
def condition : Node → Flat Node
  | .strCompare span op l r => do
    let l ← stringOf l
    let r ← stringOf r
    pure (.strCompare span op l r)
  | .binary span op l r =>
    if op.isRelational then do
      let l ← stringOf l
      let r ← stringOf r
      pure (.binary span op l r)
    else do
      let e ← arithmetic (.binary span op l r)
      let t ← hoistValue span e
      pure (.binary span .ne t (.number span 0))
  | .unary span op e => do
    let e ← arithmetic (.unary span op e)
    let t ← hoistValue span e
    pure (.binary span .ne t (.number span 0))
  | n@(.subscript ..) => place n
  | .absent => throw .absentPart
  | n => pure n

mutual

def value : Node → Flat Node
  | n@(.subscript ..) => place n
  | n@(.concat ..) => stringOf n
  | n@(.unary ..) => arithmetic n
  | n@(.binary ..) => arithmetic n
  | n@(.strCompare ..) => stringOf n
  | n@(.call ..) => stringOf n
  | .list span elems => do
    let elems ← values elems
    pure (.list span elems)
  | .absent => throw .absentPart
  | n => pure n

def values : List Node → Flat (List Node)
  | [] => pure []
  | n :: rest => do
    let n ← value n
    let rest ← values rest
    pure (n :: rest)

end

/-- Statements that have to stay one node become a synthetic block unless they are one already. -/
def single (span : Span) : List Node → Node
  | [n] => n
  | stmts => .block span stmts true

mutual

def statement : Node → Flat (List Node)
  | .block span stmts synthetic => do
    let stmts ← statements stmts
    pure [.block span stmts synthetic]
  | .assign span lhs rhs => do
    let lhs ← place lhs
    if rhs.isComparison then
      let cond ← condition rhs
      let before ← flush
      pure (before ++ [assignTruth span cond lhs])
    else
      let rhs ← value rhs
      let before ← flush
      pure (before ++ [.assign span lhs rhs])
  | n@(.call ..) => do
    let call ← stringOf n
    let before ← flush
    pure (before ++ [call])
  | .branch span cond thenBody elseBody => do
    let cond ← condition cond
    let before ← flush
    let thenBody ←
      if thenBody.isAbsent then pure .absent
      else do
        let stmts ← statement thenBody
        pure (single thenBody.span stmts)
    let elseBody ←
      if elseBody.isAbsent then pure .absent
      else do
        let stmts ← statement elseBody
        pure (single elseBody.span stmts)
    pure (before ++ [.branch span cond thenBody elseBody])
  | .loop span cond loopBody => do
    let cond ← condition cond
    let before ← flush
    let stmts ← statement loopBody
    -- The condition is evaluated again at the end of every round.
    pure (before ++ [.loop span cond (single loopBody.span (stmts ++ before))])
  | .ret span e => do
    if e.isAbsent then pure [.ret span .absent]
    else
      let e ← value e
      let before ← flush
      pure (before ++ [.ret span e])
  | .absent => throw .absentPart
  | n => pure [n]

def statements : List Node → Flat (List Node)
  | [] => pure []
  | n :: rest => do
    let n ← statement n
    let rest ← statements rest
    pure (n ++ rest)

end

def enter (region : Region) : Flat Unit :=
  modify fun s => { s with region := region }

def functionBody (n : Node) : Flat Node := do
  if n.isAbsent then pure .absent
  else
    let stmts ← statement n
    pure (single n.span stmts)

def items : List Node → Flat (List Node)
  | [] => pure []
  | .func span name params body :: rest => do
    enter (.function name)
    let body ← functionBody body
    let rest ← items rest
    pure (.func span name params body :: rest)
  | n :: rest => do
    enter .top
    let n ← statement n
    let rest ← items rest
    pure (n ++ rest)

def program (root : Node) : Flat Node :=
  match root with
  | .block span stmts synthetic => do
    let stmts ← items stmts
    pure (.block span stmts synthetic)
  | n => pure n

end Flattening

/-- The flat form of a program and the table with the temporaries it uses. -/
def flatten (table : ScopeTable) (root : Node) : Except Crash (Node × ScopeTable) :=
  match (Flattening.program root).run { table := table } with
  | .ok (flat, s) => .ok (flat, s.table)
  | .error e => .error e

end BatchCompiler.Syntax
