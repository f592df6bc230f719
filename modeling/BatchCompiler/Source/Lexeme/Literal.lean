import BatchCompiler.Number.Integer
import BatchCompiler.Source.Lexeme.Basic
import BatchCompiler.Text.CharClass

/-!
# Literals

Numbers and strings. A number with a fraction or an exponent is a floating-point literal, whose text
is kept; any other number is an integer, whose value is written in decimal. A string ends on the
line it starts on.
-/

namespace BatchCompiler.Lexeme

open Text

def integer (text : List Char) : Lexeme :=
  match Number.readLiteral? text with
  | some n => { length := text.length, token := some (.number, Number.natText n) }
  | none =>
    { length := text.length
      token := some (.number, "0")
      fault := some { problem := .invalidNumber text, length := text.length } }

def float (text : List Char) (fault : Option Fault) : Lexeme :=
  { length := text.length, token := some (.float, String.ofList text), fault := fault }

/-- A point is part of a number only when a digit follows it. -/
def fractionPart : List Char → List Char
  | '.' :: c :: rest => if isDecimalDigit c then '.' :: (c :: rest).takeWhile isDecimalDigit else []
  | _ => []

def exponentMark : List Char → List Char
  | 'e' :: '+' :: _ => ['e', '+']
  | 'e' :: '-' :: _ => ['e', '-']
  | 'e' :: _ => ['e']
  | 'E' :: '+' :: _ => ['E', '+']
  | 'E' :: '-' :: _ => ['E', '-']
  | 'E' :: _ => ['E']
  | _ => []

def decimal (text : List Char) : Lexeme :=
  let whole := text.takeWhile isDecimalDigit
  let fraction := fractionPart (text.drop whole.length)
  let body := whole ++ fraction
  let mark := exponentMark (text.drop body.length)
  let exponent := (text.drop (body.length + mark.length)).takeWhile isDecimalDigit
  if mark.isEmpty then
    if fraction.isEmpty then integer whole else float body none
  else if exponent.isEmpty then
    float (body ++ mark)
      (some { problem := .exponentWithoutDigits, length := body.length + mark.length })
  else float (body ++ mark ++ exponent) none

def number : List Char → Lexeme
  | '0' :: 'x' :: rest => integer ('0' :: 'x' :: rest.takeWhile isHexDigit)
  | '0' :: 'X' :: rest => integer ('0' :: 'X' :: rest.takeWhile isHexDigit)
  | text => decimal text

def escape? : Char → Option Char
  | 'n' => some '\n'
  | 't' => some '\t'
  | 'r' => some '\r'
  | '\\' => some '\\'
  | '"' => some '"'
  | '\'' => some '\''
  | '0' => some (Char.ofNat 0)
  | 'a' => some (Char.ofNat 7)
  | 'b' => some (Char.ofNat 8)
  | 'f' => some (Char.ofNat 12)
  | 'v' => some (Char.ofNat 11)
  | _ => none

/-- The value of a hexadecimal digit; a digit of another script counts as zero. -/
def hexValue (c : Char) : Nat :=
  (digitValue? c).getD 0

/-- The contents of a string literal read so far, or to its end. -/
structure Quoted where
  chars : List Char := []
  length : Nat
  closed : Bool := false
  faults : List Fault := []
  oddEscapes : List OddEscape := []
deriving Repr

namespace Quoted

def push (c : Char) (q : Quoted) : Quoted :=
  { q with chars := c :: q.chars }

/-- A faulty escape yields the character zero. -/
def pushFault (f : Fault) (q : Quoted) : Quoted :=
  { q with chars := Char.ofNat 0 :: q.chars, faults := f :: q.faults }

def pushOdd (c : Char) (length : Nat) (q : Quoted) : Quoted :=
  { q with chars := c :: q.chars, oddEscapes := ⟨c, length⟩ :: q.oddEscapes }

/-- Reads on to the closing quote; `n` is how much of the literal was read before. -/
def scan (n : Nat) : List Char → Quoted
  | [] => { length := n, faults := [{ problem := .unterminatedString, length := n }] }
  | '\n' :: _ => { length := n, faults := [{ problem := .unterminatedString, length := n }] }
  | '"' :: _ => { length := n + 1, closed := true }
  | '\\' :: [] => (scan (n + 1) []).pushFault { problem := .unterminatedEscape, offset := n + 1 }
  | '\\' :: 'x' :: rest => match rest with
    | [] => (scan (n + 2) []).pushFault
        { problem := .invalidHexDigit (Char.ofNat 0), length := n + 2 }
    | a :: rest =>
      if !isHexDigit a then
        (scan (n + 2) (a :: rest)).pushFault { problem := .invalidHexDigit a, length := n + 2 }
      else match rest with
        | [] => (scan (n + 3) []).pushFault
            { problem := .invalidHexDigit (Char.ofNat 0), length := n + 3 }
        | b :: rest =>
          if !isHexDigit b then
            (scan (n + 3) (b :: rest)).pushFault { problem := .invalidHexDigit b, length := n + 3 }
          else (scan (n + 4) rest).push (Char.ofNat (16 * hexValue a + hexValue b))
  | '\\' :: c :: rest => match escape? c with
    | some d => (scan (n + 2) rest).push d
    | none => (scan (n + 2) rest).pushOdd c (n + 2)
  | c :: rest => (scan (n + 1) rest).push c

end Quoted

/-- `rest` is what follows the opening quote. -/
def quoted (rest : List Char) : Lexeme :=
  let q := Quoted.scan 1 rest
  { length := q.length
    token := if q.closed then some (.string, String.ofList q.chars) else none
    fault := q.faults.head?
    oddEscapes := q.oddEscapes }

end BatchCompiler.Lexeme
