import BatchCompiler.Source.Token

/-!
# Lexemes

What stands at the front of a text: how many characters it takes, the kind and value of the token it
yields, if any, and what is wrong with it. Places inside a lexeme are distances from its start.
-/

namespace BatchCompiler

inductive LexicalProblem where
  | unexpectedCharacter (c : Char)
  | unterminatedComment
  | unterminatedString
  | unterminatedEscape
  | invalidHexDigit (c : Char)
  | exponentWithoutDigits
  | invalidNumber (text : List Char)
deriving DecidableEq, Repr

def LexicalProblem.message : LexicalProblem → String
  | .unexpectedCharacter c => "Unexpected character: '" ++ String.singleton c ++ "'"
  | .unterminatedComment => "Unterminated block comment"
  | .unterminatedString => "Unterminated string literal"
  | .unterminatedEscape => "Unterminated escape sequence"
  | .invalidHexDigit c => "Invalid hex digit '" ++ String.singleton c ++ "' in escape sequence"
  | .exponentWithoutDigits => "Malformed floating-point literal: exponent has no digits"
  | .invalidNumber text => "Invalid number literal: " ++ String.ofList text

/-- A problem with the part of a lexeme that it is reported at. -/
structure Fault where
  problem : LexicalProblem
  offset : Nat := 0
  length : Nat := 0
deriving DecidableEq, Repr

/-- An escape that denotes its own character; `length` is how much of the literal was read by then. -/
structure OddEscape where
  char : Char
  length : Nat
deriving DecidableEq, Repr

structure Lexeme where
  length : Nat
  token : Option (TokenKind × String) := none
  fault : Option Fault := none
  oddEscapes : List OddEscape := []
deriving DecidableEq, Repr

namespace Lexeme

def symbol (kind : TokenKind) (length : Nat) : Lexeme :=
  { length := length, token := some (kind, "") }

end Lexeme

end BatchCompiler
