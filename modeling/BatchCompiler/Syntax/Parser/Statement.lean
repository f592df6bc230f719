import BatchCompiler.Syntax.Parser.Expression

/-!
# Statements and programs

A program is a synthetic block of statements and function declarations in source order.
-/

namespace BatchCompiler.Syntax.Parser

def nameNode (t : Token) : Node := .ident t.span t.value

def names (missing : SyntaxProblem) : (fuel : Nat) → Parser (List Node)
  | 0 => endless
  | fuel + 1 => do
    expect .ident missing
    let t ← previous
    checkName t
    if ← accept .comma then do
      let rest ← names missing fuel
      pure (nameNode t :: rest)
    else pure [nameNode t]

def simpleStatement (fuel : Nat) : Parser Node := do
  let e ← expression fuel
  let t ← current
  if t.kind = .assign then
    if e.isPlace then do
      advance
      let rhs ← expression fuel
      expect .semi .assignmentNotEnded
      pure (.assign t.span e rhs)
    else fail t.span .invalidTarget
  else if e.isCall then do
    expect .semi .statementNotEnded
    pure e
  else fail e.span .uselessExpression

mutual

def block : (fuel : Nat) → Parser Node
  | 0 => endless
  | fuel + 1 => do
    let t ← current
    expect .lbrace .blockNotOpened
    let stmts ← blockItems fuel
    expect .rbrace .blockNotClosed
    pure (.block t.span stmts false)

def blockItems : (fuel : Nat) → Parser (List Node)
  | 0 => endless
  | fuel + 1 => do
    let comments ← drainComments
    let t ← current
    if t.kind = .rbrace || t.kind = .eof then pure comments
    else do
      let stmt ← statement fuel
      let rest ← blockItems fuel
      pure (comments ++ stmt :: rest)

def statement : (fuel : Nat) → Parser Node
  | 0 => endless
  | fuel + 1 => do
    let t ← current
    match t.kind with
    | .kwIf => do
      advance
      let cond ← condition fuel "if"
      let thenBody ← statement fuel
      if ← accept .kwElse then do
        let elseBody ← statement fuel
        pure (.branch t.span cond thenBody elseBody)
      else pure (.branch t.span cond thenBody .absent)
    | .kwWhile => do
      advance
      let cond ← condition fuel "while"
      let body ← statement fuel
      pure (.loop t.span cond body)
    | .lbrace => block fuel
    | .kwGlobal => do
      advance
      let ns ← names .globalName fuel
      expect .semi .globalNotEnded
      pure (.globals t.span ns)
    | .kwReturn => do
      advance
      if ← check .semi then do
        expect .semi .returnNotEnded
        pure (.ret t.span .absent)
      else do
        let e ← expression fuel
        expect .semi .returnNotEnded
        pure (.ret t.span e)
    | .semi => do
      advance
      pure (.empty t.span)
    | .kwFunc => fail t.span .nestedFunction
    | _ => simpleStatement fuel

end

def function (fuel : Nat) : Parser Node := do
  expect .ident .functionName
  let name ← previous
  checkName name
  expect .lparen .parametersNotOpened
  let params ← do
    if ← check .rparen then pure [] else names .parameterName fuel
  expect .rparen .parametersNotClosed
  let t ← current
  if t.kind = .lbrace then do
    let body ← block fuel
    pure (.func name.span name.value params body)
  else fail t.span (.bodyNotOpened name.value)

def items : (fuel : Nat) → Parser (List Node)
  | 0 => endless
  | fuel + 1 => do
    let comments ← drainComments
    if ← check .eof then pure comments
    else if ← accept .kwFunc then do
      let f ← function fuel
      let rest ← items fuel
      pure (comments ++ f :: rest)
    else do
      let stmt ← statement fuel
      let rest ← items fuel
      pure (comments ++ stmt :: rest)

def program (fuel : Nat) : Parser Node := do
  let t ← current
  let stmts ← items fuel
  pure (.block t.span stmts true)

end Parser

/-- Enough for any list of so many tokens that ends with an end of file. -/
def fuelFor (tokens : Nat) : Nat := 16 * (tokens + 4)

/-- The outcome of parsing. Settings and remarks are those reached when parsing ended. -/
structure Parsed where
  result : Except Stop Node
  settings : Settings
  remarks : List Remark

/-- Parses a token list; `none` stands for the empty list, which has no last token to stand at. -/
def parse? (settings : Settings) (tokens : List Token) : Option Parsed :=
  (State.start? settings tokens).map fun s =>
    match Parser.program (fuelFor tokens.length) s with
    | .ok root s => { result := .ok root, settings := s.settings, remarks := s.remarks }
    | .stop why s => { result := .error why, settings := s.settings, remarks := s.remarks }

end BatchCompiler.Syntax
