import BatchCompiler.Text.LetterTable
import BatchCompiler.Text.DigitTable
import BatchCompiler.Text.PrintableTable

/-!
# Character classes

The classes the scanner and the quoting rules ask about. ASCII characters are decided directly;
only the others are looked up in the tables.
-/

namespace BatchCompiler.Text

/-- Membership in a list of closed intervals that is sorted by lower end. -/
def inRanges (n : Nat) : List (Nat × Nat) → Bool
  | [] => false
  | (lo, hi) :: rest => if n < lo then false else n ≤ hi || inRanges n rest

def isLetter (c : Char) : Bool :=
  c.isAlpha || (127 < c.toNat && inRanges c.toNat letterRanges)

def isDecimalDigit (c : Char) : Bool :=
  c.isDigit || (127 < c.toNat && inRanges c.toNat digitRanges)

def isNameStart (c : Char) : Bool :=
  isLetter c || c == '_'

def isNamePart (c : Char) : Bool :=
  isLetter c || isDecimalDigit c || c == '_'

/-- What may follow `0x`: any decimal digit, and the ASCII letters up to `f`. -/
def isHexDigit (c : Char) : Bool :=
  isDecimalDigit c || ('a' ≤ c && c ≤ 'f') || ('A' ≤ c && c ≤ 'F')

def isPrintable (c : Char) : Bool :=
  if c.toNat ≤ 127 then 32 ≤ c.toNat && c.toNat < 127 else inRanges c.toNat printableRanges

/-- The value of an ASCII digit in any base up to sixteen. -/
def digitValue? (c : Char) : Option Nat :=
  if '0' ≤ c ∧ c ≤ '9' then some (c.toNat - '0'.toNat)
  else if 'a' ≤ c ∧ c ≤ 'f' then some (c.toNat - 'a'.toNat + 10)
  else if 'A' ≤ c ∧ c ≤ 'F' then some (c.toNat - 'A'.toNat + 10)
  else none

end BatchCompiler.Text
