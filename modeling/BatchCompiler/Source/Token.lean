import BatchCompiler.Source.Span

/-!
# Tokens

The lexical elements of a program. Keywords and symbols are spelled in one way; names, literals and
comments carry their text.
-/

namespace BatchCompiler

inductive TokenKind where
  | eof
  | comment
  | directive
  | ident
  | number
  | float
  | string
  | kwFunc
  | kwGlobal
  | kwIf
  | kwElse
  | kwWhile
  | kwReturn
  | kwTrue
  | kwFalse
  | lparen
  | rparen
  | lbrace
  | rbrace
  | lbracket
  | rbracket
  | semi
  | comma
  | assign
  | plus
  | minus
  | star
  | slash
  | percent
  | amp
  | bar
  | caret
  | shl
  | shr
  | eq
  | ne
  | lt
  | gt
  | ge
  | le
  | bang
  | tilde
  | unknown
deriving DecidableEq, Repr, Inhabited

namespace TokenKind

/-- All kinds with a number of their own, in the order of their numbers. -/
def all : List TokenKind :=
  [eof, comment, directive, ident, number, float, string, kwFunc, kwGlobal, kwIf, kwElse, kwWhile,
    kwReturn, kwTrue, kwFalse, lparen, rparen, lbrace, rbrace, lbracket, rbracket, semi, comma,
    assign, plus, minus, star, slash, percent, amp, bar, caret, shl, shr, eq, ne, lt, gt, ge, le,
    bang, tilde]

def ofNumber (n : Int) : TokenKind :=
  if n < 0 then unknown else all.getD n.toNat unknown

/-- The spelling of a keyword or symbol, and a description of any other kind. -/
def text : TokenKind → String
  | eof => "end of file"
  | comment => "comment"
  | directive => "directive"
  | ident => "identifier"
  | number => "number"
  | float => "float"
  | string => "string"
  | kwFunc => "func"
  | kwGlobal => "global"
  | kwIf => "if"
  | kwElse => "else"
  | kwWhile => "while"
  | kwReturn => "return"
  | kwTrue => "true"
  | kwFalse => "false"
  | lparen => "("
  | rparen => ")"
  | lbrace => "\x7b"
  | rbrace => "\x7d"
  | lbracket => "["
  | rbracket => "]"
  | semi => ";"
  | comma => ","
  | assign => "="
  | plus => "+"
  | minus => "-"
  | star => "*"
  | slash => "/"
  | percent => "%"
  | amp => "&"
  | bar => "|"
  | caret => "^"
  | shl => "<<"
  | shr => ">>"
  | eq => "=="
  | ne => "!="
  | lt => "<"
  | gt => ">"
  | ge => ">="
  | le => "<="
  | bang => "!"
  | tilde => "~"
  | unknown => "unknown"

def keywords : List TokenKind :=
  [kwFunc, kwGlobal, kwIf, kwElse, kwWhile, kwReturn, kwTrue, kwFalse]

def keyword? (word : String) : Option TokenKind :=
  keywords.find? fun k => k.text == word

def isRelational : TokenKind → Bool
  | eq | ne | lt | gt | ge | le => true
  | _ => false

end TokenKind

structure Token where
  kind : TokenKind
  value : String := ""
  span : Span := {}
deriving DecidableEq, Repr, Inhabited

end BatchCompiler
