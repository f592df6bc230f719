import BatchCompiler.Source.Lexeme.Basic

/-!
# Gaps between lexemes

Blanks, tabs, line ends and block comments. Block comments do not nest.
-/

namespace BatchCompiler

/-- The length of a gap, and the distance to the start of a block comment it leaves open. -/
structure Gap where
  length : Nat
  unclosed : Option Nat := none
deriving DecidableEq, Repr

namespace Gap

def isSpacing (c : Char) : Bool :=
  c == ' ' || c == '\t' || c == '\n' || c == '\r'

/-- `comment` is where the block comment being read started, `n` how much was read before. -/
def scan (comment : Option Nat) (n : Nat) : List Char → Gap
  | [] => { length := n, unclosed := comment }
  | c :: rest => match comment with
    | none =>
      if isSpacing c then scan none (n + 1) rest
      else match c, rest with
        | '/', '*' :: rest => scan (some n) (n + 2) rest
        | _, _ => { length := n }
    | some start => match c, rest with
      | '*', '/' :: rest => scan none (n + 2) rest
      | _, rest => scan (some start) (n + 1) rest

def ofText (text : List Char) : Gap :=
  scan none 0 text

def fault? (g : Gap) : Option Fault :=
  g.unclosed.map fun start => { problem := .unterminatedComment, offset := start }

end Gap

end BatchCompiler
