import BatchCompiler.Proofs.Meaning.Observation
import BatchCompiler.Text.Blank

/-!
# The meaning of scripts

A script is run row by row. An `if` row opens a block. A jump leaves every open block and goes on
after the row of its label; a row that closes a block while none is open does nothing, also when it
would open an else part. Rows carry their numbers, so that what a reader does can be told by place.
-/

namespace BatchCompiler.Script

open Meaning

abbrev Line := List Char

structure Row where
  number : Nat
  line : Line

def dropReturn : List Char → List Char
  | [] => []
  | ['\r'] => []
  | c :: rest => c :: dropReturn rest

def trimLine (cs : List Char) : Line :=
  dropReturn (cs.dropWhile (· == ' '))

def rowsFrom (number : Nat) : List Line → List Row
  | [] => []
  | line :: rest => ⟨number, line⟩ :: rowsFrom (number + 1) rest

def rowsOf (script : String) : List Row :=
  rowsFrom 0 ((Text.splitFrom '\n' [] script.toList).map trimLine)

def afterBinding? (line : Line) : Option Line :=
  match Text.afterLead? "for %%".toList line with
  | some (_ :: rest) =>
    match Text.afterLead? " in (".toList rest with
    | some rest => Text.afterLead? ") do ".toList (rest.dropWhile (· != ')'))
    | none => none
  | _ => none

def afterBindings : (fuel : Nat) → Line → Line
  | 0, line => line
  | fuel + 1, line =>
    match afterBinding? line with
    | some rest => afterBindings fuel rest
    | none => line

def core (line : Line) : Line := afterBindings line.length line

inductive RowKind where
  | remark
  | label
  | jump (target : List Char)
  | opening
  | otherwise
  | closing
  | command
deriving DecidableEq, Repr

/-- Words that do not call a command of that name when a line starts with them. -/
def ownWords : List String := ["for", "goto", "rem"]

def dropColon : List Char → List Char
  | ':' :: rest => rest
  | target => target

def kindOfCore (line : Line) : RowKind :=
  match line with
  | [] => .remark
  | ':' :: _ => .label
  | ')' :: rest => if rest = " else (".toList then .otherwise else .closing
  | line =>
    if line = "rem".toList || (Text.afterLead? "rem ".toList line).isSome then .remark
    else match Text.afterLead? "goto ".toList line with
      | some target => .jump (dropColon target)
      | none =>
        if (Text.afterLead? "if ".toList line).isSome && line.getLast? == some '(' then .opening
        else .command

def kindOf (line : Line) : RowKind := kindOfCore (core line)

/-- Passes over the rest of a block in which `inner` more blocks are open. The flag tells whether an
else part follows. -/
def passBlock : (inner : Nat) → List Row → Option (Bool × List Row)
  | _, [] => none
  | inner, row :: rest =>
    match kindOf row.line, inner with
    | .opening, inner => passBlock (inner + 1) rest
    | .closing, 0 => some (false, rest)
    | .closing, inner + 1 => passBlock inner rest
    | .otherwise, 0 => some (true, rest)
    | _, inner => passBlock inner rest

def afterRow? (label : List Char) : List Row → Option (List Row)
  | [] => none
  | row :: rest => if row.line = ':' :: label then some rest else afterRow? label rest

structure Reader where
  rest : List Row
  depth : Nat := 0

def Reader.pass (depth : Nat) (rest : List Row) : Reader :=
  match passBlock 0 rest with
  | some (true, rest) => ⟨rest, depth + 1⟩
  | some (false, rest) => ⟨rest, depth⟩
  | none => ⟨[], depth⟩

def Reader.turn (script : List Row) : Reader → Turn Row Row Reader
  | ⟨[], _⟩ => .stop
  | ⟨row :: rest, depth⟩ =>
    match kindOf row.line with
    | .remark | .label => .go ⟨rest, depth⟩
    | .jump target =>
      if target = "eof".toList then .stop
      else match afterRow? target script with
        | some rest => .go ⟨rest, 0⟩
        | none => .stop
    | .opening => .test row ⟨rest, depth + 1⟩ (Reader.pass depth rest)
    | .otherwise =>
      match depth with
      | 0 => .go ⟨rest, 0⟩
      | depth + 1 => .go (Reader.pass depth rest)
    | .closing => .go ⟨rest, depth - 1⟩
    | .command => .act row ⟨rest, depth⟩

end BatchCompiler.Script
