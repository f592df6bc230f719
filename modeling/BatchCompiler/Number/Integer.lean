import BatchCompiler.Text.CharClass

/-!
# Integer literals

Three readings of digits: a literal of the source language, whose base its first characters
choose; a decimal that is clamped to 64 bits; and the plain decimal text of an integer.
-/

namespace BatchCompiler.Number

/-- The value of a digit string in the given base, provided every character is a digit of it. -/
def ofDigits? (base : Nat) (acc : Nat) : List Char → Option Nat
  | [] => some acc
  | c :: rest => match Text.digitValue? c with
    | some d => if d < base then ofDigits? base (acc * base + d) rest else none
    | none => none

/-- A leading `0x` makes a literal hexadecimal and any other leading zero makes it octal. -/
def literalValue? : List Char → Option Nat
  | [] => none
  | '0' :: 'x' :: c :: rest => ofDigits? 16 0 (c :: rest)
  | '0' :: 'X' :: c :: rest => ofDigits? 16 0 (c :: rest)
  | '0' :: rest => ofDigits? 8 0 rest
  | digits => ofDigits? 10 0 digits

/-- A source literal; it has to be below `2 ^ 63`. -/
def readLiteral? (digits : List Char) : Option Nat :=
  match literalValue? digits with
  | some n => if n < 0x8000000000000000 then some n else none
  | none => none

inductive Magnitude where
  | exact (n : Nat)
  | tooLarge
  | malformed
deriving DecidableEq, Repr

/-- Reads decimal digits until the value no longer fits 64 bits. What follows is not looked at. -/
def magnitude (acc : Nat) : List Char → Magnitude
  | [] => .exact acc
  | c :: rest =>
    if c.isDigit then
      let n := acc * 10 + (c.toNat - '0'.toNat)
      if n < 0x10000000000000000 then magnitude n rest else .tooLarge
    else .malformed

def clamp (negative : Bool) : Magnitude → Int64
  | .malformed => 0
  | .tooLarge => if negative then Int64.minValue else Int64.maxValue
  | .exact n =>
    if negative then
      if n < 0x8000000000000000 then -(Int64.ofNat n) else Int64.minValue
    else if n < 0x8000000000000000 then Int64.ofNat n else Int64.maxValue

def unsigned (digits : List Char) : Magnitude :=
  if digits.isEmpty then .malformed else magnitude 0 digits

/-- A signed decimal; malformed text counts as zero and a value out of range as the nearest bound. -/
def readClamped (s : String) : Int64 :=
  match s.toList with
  | '-' :: digits => clamp true (unsigned digits)
  | '+' :: digits => clamp false (unsigned digits)
  | digits => clamp false (unsigned digits)

def digitsOf (n : Nat) : List Char :=
  (Nat.toDigits 10 n)

def natText (n : Nat) : String :=
  String.ofList (digitsOf n)

def intText (n : Int) : String :=
  if n < 0 then String.ofList ('-' :: digitsOf n.natAbs) else natText n.natAbs

end BatchCompiler.Number
