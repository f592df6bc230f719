import BatchCompiler.Source.Span

/-!
# Reading positions

A cursor stands before a character of the source and knows the line and column of that character.
-/

namespace BatchCompiler

structure Cursor where
  rest : List Char
  line : Nat := 1
  column : Nat := 1
deriving DecidableEq, Repr

namespace Cursor

def start (source : List Char) : Cursor := { rest := source }

def next (c : Cursor) : Cursor :=
  match c.rest with
  | [] => c
  | ch :: rest =>
    if ch = '\n' then { rest := rest, line := c.line + 1, column := 1 }
    else { rest := rest, line := c.line, column := c.column + 1 }

def skip : (n : Nat) → Cursor → Cursor
  | 0, c => c
  | n + 1, c => skip n c.next

def span (c : Cursor) (file : Int) (length : Nat) : Span :=
  { file := file, line := c.line, column := c.column, length := length }

end Cursor

end BatchCompiler
