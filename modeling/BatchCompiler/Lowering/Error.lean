import BatchCompiler.Crash
import BatchCompiler.Source.Diagnostic
import BatchCompiler.Syntax.Node

/-!
# Why lowering fails

A program is rejected because a form cannot be represented where it stands, because it is not
supported yet, or because the tree has a form that parsing does not produce.
-/

namespace BatchCompiler.Lowering

inductive ErrorKind where
  | unsupported
  | unimplemented
  | internal
  | other
deriving DecidableEq, Repr, Inhabited

def ErrorKind.ofNumber : Int → ErrorKind
  | 0 => .unsupported
  | 1 => .unimplemented
  | 2 => .internal
  | _ => .other

def ErrorKind.text : ErrorKind → String
  | .unsupported => "unsupported"
  | .unimplemented => "unimplemented"
  | .internal => "internal error"
  | .other => "error"

inductive Problem where
  | rootNotBlock (found : Shape)
  | unknownFunction (name : String)
  | notAPlace (found : Shape)
  | badIndex (found : Shape)
  | unknownUnary (op : TokenKind)
  | comparisonAsNumber (op : TokenKind)
  | notANumber (found : Shape)
  | capturedCall
  | floatAsText
  | notAText (found : Shape)
  | notACondition (found : Shape)
  | unknownComparison (op : TokenKind)
  | notAStatement (found : Shape)
  | notAValue (found : Shape)
  | calleeNotAName (found : Shape)
  | valueOutsideFunction
deriving DecidableEq, Repr

namespace Problem

def kind : Problem → ErrorKind
  | rootNotBlock _ | unknownFunction _ | notAPlace _ | unknownUnary _ | notAText _ => .internal
  | unknownComparison _ | notAStatement _ | notAValue _ | calleeNotAName _ => .internal
  | badIndex _ | comparisonAsNumber _ | notANumber _ | floatAsText | notACondition _ => .unsupported
  | valueOutsideFunction => .unsupported
  | capturedCall => .unimplemented

def message : Problem → String
  | rootNotBlock found => "program root must be a block, got " ++ found.name
  | unknownFunction name => "function '" ++ name ++ "' is missing from the symbol table"
  | notAPlace found => found.name ++ " is not an assignable location"
  | badIndex found => "index must be a variable or integer literal, got " ++ found.name
  | unknownUnary op => "unknown unary operator " ++ op.text
  | comparisonAsNumber op => "comparison '" ++ op.text ++ "' is not an arithmetic value"
  | notANumber found => found.name ++ " is not an arithmetic value"
  | capturedCall => "capturing the output of a call as a string is not supported"
  | floatAsText => "floating-point values are not supported"
  | notAText found => found.name ++ " cannot appear in string position"
  | notACondition found => found.name ++ " cannot be used as a condition"
  | unknownComparison op => "unknown comparison operator " ++ op.text
  | notAStatement found => found.name ++ " has no effect as a statement"
  | notAValue found => found.name ++ " cannot be assigned"
  | calleeNotAName found => "callee must be a name, got " ++ found.name
  | valueOutsideFunction => "return with a value outside a function"

end Problem

def errorText (kind : ErrorKind) (message scope : String) : String :=
  kind.text ++ ": " ++ message ++ " (in " ++ scope ++ " scope)"

structure Error where
  problem : Problem
  span : Span
  scope : String
deriving DecidableEq, Repr

def Error.diagnostic (e : Error) : Diagnostic :=
  { span := e.span, message := errorText e.problem.kind e.problem.message e.scope }

inductive Failure where
  | rejected (e : Error)
  | crash (why : Crash)
deriving DecidableEq, Repr

end BatchCompiler.Lowering
