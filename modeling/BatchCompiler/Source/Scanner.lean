import BatchCompiler.Source.Cursor
import BatchCompiler.Source.Diagnostic
import BatchCompiler.Source.Lexeme.Gap
import BatchCompiler.Source.Lexeme.Scan

/-!
# Scanning

Turns a source text into tokens. After the first lexical error only end-of-file tokens follow.
-/

namespace BatchCompiler

structure Scanner where
  settings : Settings
  file : Int
  cursor : Cursor
  error : Option Diagnostic := none
  remarks : List Remark := []

namespace Scanner

def start (settings : Settings) (file : Int) (source : List Char) : Scanner :=
  { settings := settings, file := file, cursor := .start source }

def spanOf (s : Scanner) (f : Fault) : Span :=
  (s.cursor.skip f.offset).span s.file f.length

def remarkOf (s : Scanner) (e : OddEscape) : List Remark :=
  s.settings.remark .unknownEscape (s.cursor.span s.file e.length)
    ("Unrecognized escape sequence '\\" ++ String.singleton e.char ++ "'")

/-- Moves past `length` characters; an error is kept unless there was one before. -/
def move (s : Scanner) (length : Nat) (fault : Option Fault) : Scanner :=
  { s with
    cursor := s.cursor.skip length
    error := s.error <|> fault.map fun f => ⟨s.spanOf f, f.problem.message⟩ }

def eofToken (s : Scanner) : Token :=
  { kind := .eof, span := s.cursor.span s.file 0 }

def skipGap (s : Scanner) : Scanner :=
  let g := Gap.ofText s.cursor.rest
  s.move g.length g.fault?

def take (s : Scanner) : Option Token × Scanner :=
  let l := Lexeme.scan s.settings s.cursor.rest
  let token := l.token.map fun (kind, value) =>
    { kind := kind, value := value, span := s.cursor.span s.file l.length }
  (token, { s.move l.length l.fault with
    remarks := s.remarks ++ l.oddEscapes.flatMap s.remarkOf })

/-- The next token. A lexeme without a token takes at least one character, so `fuel` need not
exceed the length of the text that is left. -/
def nextWithin (s : Scanner) : (fuel : Nat) → Token × Scanner
  | 0 => (s.eofToken, s)
  | fuel + 1 =>
    if s.error.isSome then (s.eofToken, s)
    else
      let s := s.skipGap
      if s.cursor.rest.isEmpty then (s.eofToken, s)
      else match s.take with
        | (some t, s) => (t, s)
        | (none, s) => s.nextWithin fuel

def next (s : Scanner) : Token × Scanner :=
  s.nextWithin (s.cursor.rest.length + 1)

/-- All tokens up to the end of file. Each takes at least one character, so that what bounds their
number bounds the search for the next one too. -/
def tokensWithin : (fuel : Nat) → Scanner → List Token × Scanner
  | 0, s => ([s.eofToken], s)
  | fuel + 1, s =>
    let (t, s) := s.nextWithin (fuel + 1)
    if t.kind = .eof then ([t], s)
    else
      let (ts, s) := tokensWithin fuel s
      (t :: ts, s)

def tokens (s : Scanner) : List Token × Scanner :=
  tokensWithin (s.cursor.rest.length + 1) s

def nextTokens : (n : Nat) → Scanner → List Token × Scanner
  | 0, s => ([], s)
  | n + 1, s =>
    let (t, s) := s.next
    let (ts, s) := nextTokens n s
    (t :: ts, s)

end Scanner

end BatchCompiler
