import BatchCompiler.Settings.Flag
import BatchCompiler.Source.Diagnostic
import BatchCompiler.Syntax.Node

/-!
# Reading tokens

The state of the parser and its elementary steps. Comments and directives are passed over on the way
to the next token: directives change the settings, and comments outside expressions wait for the
statement list they belong to. The last token is met again and again once the others are used up.
-/

namespace BatchCompiler

inductive SyntaxProblem where
  | expectedExpression
  | invalidFloat (text : String)
  | reservedName (name : String)
  | unclosedList
  | unclosedParenthesis
  | notCallable
  | unclosedArguments
  | notIndexable
  | unclosedIndex
  | conditionNotOpened (keyword : String)
  | conditionNotClosed (keyword : String)
  | blockNotOpened
  | blockNotClosed
  | globalName
  | globalNotEnded
  | returnNotEnded
  | nestedFunction
  | invalidTarget
  | assignmentNotEnded
  | uselessExpression
  | statementNotEnded
  | functionName
  | parametersNotOpened
  | parameterName
  | parametersNotClosed
  | bodyNotOpened (function : String)
deriving DecidableEq, Repr

def SyntaxProblem.message : SyntaxProblem → String
  | .expectedExpression => "Expected an expression."
  | .invalidFloat text => "Invalid floating-point literal: " ++ text
  | .reservedName name =>
    "Identifier '" ++ name ++ "' is reserved: names starting with '__' belong to the compiler."
  | .unclosedList => "Expected ']' after list elements."
  | .unclosedParenthesis => "Expected ')' after expression."
  | .notCallable => "Only named functions or commands can be called."
  | .unclosedArguments => "Expected ')' after function arguments."
  | .notIndexable => "Only variables and their elements can be indexed."
  | .unclosedIndex => "Expected ']' after list index."
  | .conditionNotOpened keyword => "Expected '(' after '" ++ keyword ++ "'."
  | .conditionNotClosed keyword => "Expected ')' after " ++ keyword ++ " condition."
  | .blockNotOpened => "Expected '\x7b' to start a block."
  | .blockNotClosed => "Expected '\x7d' after block."
  | .globalName => "Expected identifier in 'global' declaration."
  | .globalNotEnded => "Expected ';' after 'global' declaration."
  | .returnNotEnded => "Expected ';' after return statement."
  | .nestedFunction => "Functions can only be declared at top level."
  | .invalidTarget => "Invalid target for assignment."
  | .assignmentNotEnded => "Expected ';' after assignment."
  | .uselessExpression => "Expression statement must be a call or an assignment."
  | .statementNotEnded => "Expected ';' after expression statement."
  | .functionName => "Expected function name after 'func'."
  | .parametersNotOpened => "Expected '(' after function name."
  | .parameterName => "Expected parameter name."
  | .parametersNotClosed => "Expected ')' after parameters."
  | .bodyNotOpened function => "Expected '\x7b' to start the body of '" ++ function ++ "'."

namespace Syntax

structure State where
  rest : List Token
  last : Token
  current : Token
  previous : Token := default
  settings : Settings
  depth : Nat := 0
  pending : List Token := []
  remarks : List Remark := []

/-- Why parsing ended early. Parsing is endless only when the last token is not an end of file. -/
inductive Stop where
  | rejected (span : Span) (problem : SyntaxProblem)
  | endless
deriving DecidableEq, Repr

inductive Reply (α : Type) where
  | ok (value : α) (state : State)
  | stop (why : Stop) (state : State)

def Parser (α : Type) : Type := State → Reply α

namespace Parser

def pure {α : Type} (a : α) : Parser α := fun s => .ok a s

def bind {α β : Type} (p : Parser α) (f : α → Parser β) : Parser β := fun s =>
  match p s with
  | .ok a s => f a s
  | .stop why s => .stop why s

instance : Monad Parser where
  pure := Parser.pure
  bind := Parser.bind

def endless {α : Type} : Parser α := fun s => .stop .endless s

def fail {α : Type} (span : Span) (problem : SyntaxProblem) : Parser α :=
  fun s => .stop (.rejected span problem) s

def current : Parser Token := fun s => .ok s.current s

def previous : Parser Token := fun s => .ok s.previous s

end Parser

namespace State

def applyDirective (s : State) (t : Token) : State :=
  let (settings, unknown) := s.settings.applyDirective t.value
  { s with
    settings := settings
    remarks := s.remarks ++ unknown.flatMap fun flag =>
      settings.remark .extra t.span ("Unrecognized flag '" ++ flag ++ "' in directive") }

def keepComment (s : State) (t : Token) : State :=
  if s.depth = 0 then { s with pending := s.pending ++ [t] } else s

/-- Makes the first significant token of `tokens` the current one. -/
def settle (s : State) : List Token → State
  | [] => { s with rest := [], current := s.last }
  | t :: rest => match t.kind with
    | .directive => (s.applyDirective t).settle rest
    | .comment => (s.keepComment t).settle rest
    | _ => { s with rest := rest, current := t }

def advance (s : State) : State :=
  { s with previous := s.current }.settle s.rest

/-- The state before the first significant token; there has to be a token. -/
def start? (settings : Settings) (tokens : List Token) : Option State :=
  tokens.getLast?.map fun last =>
    State.settle { rest := [], last := last, current := last, settings := settings } tokens

end State

namespace Parser

def advance : Parser Unit := fun s => .ok () s.advance

def check (kind : TokenKind) : Parser Bool := fun s => .ok (s.current.kind = kind) s

/-- Passes over the current token if it is of the given kind, and tells whether it was. -/
def accept (kind : TokenKind) : Parser Bool := fun s =>
  if s.current.kind = kind then .ok true s.advance else .ok false s

def expect (kind : TokenKind) (problem : SyntaxProblem) : Parser Unit := fun s =>
  if s.current.kind = kind then .ok () s.advance
  else .stop (.rejected s.current.span problem) s

/-- Names the compiler mints for itself start in this way. -/
def reservedLead : String := "__"

def checkName (t : Token) : Parser Unit :=
  if Text.startsWith reservedLead t.value then fail t.span (.reservedName t.value) else pure ()

def drainComments : Parser (List Node) := fun s =>
  .ok (s.pending.map fun t => .comment t.span t.value) { s with pending := [] }

def enter : Parser Unit := fun s => .ok () { s with depth := s.depth + 1 }

def leave : Parser Unit := fun s => .ok () { s with depth := s.depth - 1 }

end Parser

end Syntax

end BatchCompiler
