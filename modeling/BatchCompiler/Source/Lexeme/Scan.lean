import BatchCompiler.Settings.Basic
import BatchCompiler.Source.Lexeme.Literal
import BatchCompiler.Text.Blank

/-!
# The lexeme at the front of a text

The longest symbol wins. A line comment is a directive when it starts with the directive mark, and
otherwise it is kept or dropped as the settings say.
-/

namespace BatchCompiler.Lexeme

open Text

/-- `rest` is what follows the two slashes. -/
def lineComment (s : Settings) (rest : List Char) : Lexeme :=
  let raw := rest.takeWhile (· != '\n')
  let content := trimChars raw
  let kept : Lexeme :=
    { length := raw.length + 2
      token := if s.feature .keepComments then some (.comment, String.ofList content) else none }
  if s.feature .noDirectives then kept
  else match afterLead? s.directiveMark.toList content with
    | some flags =>
      { length := raw.length + 2, token := some (.directive, String.ofList (trimChars flags)) }
    | none => kept

def word (text : List Char) : Lexeme :=
  let name := text.takeWhile isNamePart
  match TokenKind.keyword? (String.ofList name) with
  | some k => symbol k name.length
  | none => { length := name.length, token := some (.ident, String.ofList name) }

def unexpected (c : Char) : Lexeme :=
  { length := 1, fault := some { problem := .unexpectedCharacter c, length := 1 } }

def punctuation : List Char → Lexeme
  | '(' :: _ => symbol .lparen 1
  | ')' :: _ => symbol .rparen 1
  | '{' :: _ => symbol .lbrace 1
  | '}' :: _ => symbol .rbrace 1
  | '[' :: _ => symbol .lbracket 1
  | ']' :: _ => symbol .rbracket 1
  | ';' :: _ => symbol .semi 1
  | ',' :: _ => symbol .comma 1
  | '+' :: _ => symbol .plus 1
  | '-' :: _ => symbol .minus 1
  | '*' :: _ => symbol .star 1
  | '/' :: _ => symbol .slash 1
  | '%' :: _ => symbol .percent 1
  | '&' :: _ => symbol .amp 1
  | '|' :: _ => symbol .bar 1
  | '^' :: _ => symbol .caret 1
  | '~' :: _ => symbol .tilde 1
  | '!' :: '=' :: _ => symbol .ne 2
  | '!' :: _ => symbol .bang 1
  | '=' :: '=' :: _ => symbol .eq 2
  | '=' :: _ => symbol .assign 1
  | '<' :: '<' :: _ => symbol .shl 2
  | '<' :: '=' :: _ => symbol .le 2
  | '<' :: _ => symbol .lt 1
  | '>' :: '>' :: _ => symbol .shr 2
  | '>' :: '=' :: _ => symbol .ge 2
  | '>' :: _ => symbol .gt 1
  | '"' :: rest => quoted rest
  | c :: _ => unexpected c
  | [] => { length := 0 }

def startsNumber : List Char → Bool
  | '.' :: c :: _ => isDecimalDigit c
  | c :: _ => isDecimalDigit c
  | [] => false

def scan (s : Settings) : List Char → Lexeme
  | '/' :: '/' :: rest => lineComment s rest
  | c :: rest =>
    if isNameStart c then word (c :: rest)
    else if startsNumber (c :: rest) then number (c :: rest)
    else punctuation (c :: rest)
  | [] => { length := 0 }

end BatchCompiler.Lexeme
