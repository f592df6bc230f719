import BatchCompiler.Number.Binary64.Basic
import BatchCompiler.Text.CharClass

/-!
# Reading floating-point text

Decimal text with an optional fraction and exponent, hexadecimal text with a binary exponent, and
the names of infinity and of the value that is not a number. Underscores may separate digits.
-/

namespace BatchCompiler.Number.Binary64

inductive ReadError where
  | malformed
  | outOfRange (negative : Bool)
deriving DecidableEq, Repr

/-- Digits read so far: their value, how many there were, and how many followed the point. -/
structure Significand where
  value : Nat := 0
  digits : Nat := 0
  fraction : Nat := 0
  pointSeen : Bool := false
deriving Repr

def Significand.push (base : Nat) (s : Significand) (d : Nat) : Significand :=
  { s with
    value := s.value * base + d
    digits := s.digits + 1
    fraction := if s.pointSeen then s.fraction + 1 else s.fraction }

def scanSignificand (base : Nat) (s : Significand) : List Char → Significand × List Char
  | [] => (s, [])
  | c :: rest =>
    if c == '_' then scanSignificand base s rest
    else if c == '.' then
      if s.pointSeen then (s, c :: rest) else scanSignificand base { s with pointSeen := true } rest
    else match Text.digitValue? c with
      | some d => if d < base then scanSignificand base (s.push base d) rest else (s, c :: rest)
      | none => (s, c :: rest)

/-- Digits of an exponent. Digits past the fifth do not count: they are far out of range anyway. -/
def scanExponent (acc : Nat) : List Char → Nat × List Char
  | [] => (acc, [])
  | c :: rest =>
    if c == '_' then scanExponent acc rest
    else if c.isDigit then
      scanExponent (if acc < 10000 then acc * 10 + (c.toNat - '0'.toNat) else acc) rest
    else (acc, c :: rest)

def unsignedExponent? : List Char → Option (Nat × List Char)
  | [] => none
  | c :: rest => if c.isDigit then some (scanExponent 0 (c :: rest)) else none

def exponent? : List Char → Option (Int × List Char)
  | '+' :: rest => (unsignedExponent? rest).map fun (e, left) => ((e : Int), left)
  | '-' :: rest => (unsignedExponent? rest).map fun (e, left) => (-(e : Int), left)
  | rest => (unsignedExponent? rest).map fun (e, left) => ((e : Int), left)

inductive LastSeen where
  | start
  | digit
  | underscore
  | other
deriving DecidableEq

/-- Every underscore stands between two digits; a base mark counts as a digit. -/
def separatorsFit (hex : Bool) (seen : LastSeen) : List Char → Bool
  | [] => seen != .underscore
  | c :: rest =>
    if c.isDigit || (hex && (Text.digitValue? c).isSome) then separatorsFit hex .digit rest
    else if c == '_' then seen == .digit && separatorsFit hex .underscore rest
    else seen != .underscore && separatorsFit hex .other rest

/-- The value `s * base ^ exponent`, unless it is beyond the largest finite one. -/
def ofDecimal (negative : Bool) (s : Nat) (exponent : Int) : Except ReadError Binary64 :=
  if s = 0 then .ok (zero negative)
  else
    let point := exponent + (Nat.toDigits 10 s).length
    if 310 < point then .error (.outOfRange negative)
    else if point < -330 then .ok (zero negative)
    else
      let value := if 0 ≤ exponent then nearest? negative (s * Nat.pow 10 exponent.toNat) 1
        else nearest? negative s (Nat.pow 10 (-exponent).toNat)
      value.elim (.error (.outOfRange negative)) .ok

def ofHexadecimal (negative : Bool) (s : Nat) (exponent : Int) : Except ReadError Binary64 :=
  if s = 0 then .ok (zero negative)
  else
    let point := exponent + Nat.log2 s
    if 1100 < point then .error (.outOfRange negative)
    else if point < -1200 then .ok (zero negative)
    else
      let value := if 0 ≤ exponent then nearest? negative (s * Nat.pow 2 exponent.toNat) 1
        else nearest? negative s (Nat.pow 2 (-exponent).toNat)
      value.elim (.error (.outOfRange negative)) .ok

def readDecimal (negative : Bool) (text : List Char) : Except ReadError Binary64 :=
  let (s, rest) := scanSignificand 10 {} text
  if s.digits = 0 then .error .malformed
  else
    let tail : Option (Int × List Char) := match rest with
      | 'e' :: rest => exponent? rest
      | 'E' :: rest => exponent? rest
      | rest => some (0, rest)
    match tail with
    | some (e, []) =>
      if text.contains '_' && !separatorsFit false .start text then .error .malformed
      else ofDecimal negative s.value (e - s.fraction)
    | _ => .error .malformed

/-- `text` is what follows the base mark. -/
def readHexadecimal (negative : Bool) (text : List Char) : Except ReadError Binary64 :=
  let (s, rest) := scanSignificand 16 {} text
  if s.digits = 0 then .error .malformed
  else
    let tail : Option (Int × List Char) := match rest with
      | 'p' :: rest => exponent? rest
      | 'P' :: rest => exponent? rest
      | _ => none
    match tail with
    | some (e, []) =>
      if text.contains '_' && !separatorsFit true .digit text then .error .malformed
      else ofHexadecimal negative s.value (e - 4 * s.fraction)
    | _ => .error .malformed

def readUnsigned (negative : Bool) : List Char → Except ReadError Binary64
  | '0' :: 'x' :: c :: rest => readHexadecimal negative (c :: rest)
  | '0' :: 'X' :: c :: rest => readHexadecimal negative (c :: rest)
  | text => readDecimal negative text

def isInfinityName (text : List Char) : Bool :=
  let folded := text.map Char.toLower
  folded == "inf".toList || folded == "infinity".toList

def read (text : String) : Except ReadError Binary64 :=
  match text.toList with
  | '-' :: rest => if isInfinityName rest then .ok (.infinity true) else readUnsigned true rest
  | '+' :: rest => if isInfinityName rest then .ok (.infinity false) else readUnsigned false rest
  | rest =>
    if isInfinityName rest then .ok (.infinity false)
    else if rest.map Char.toLower == "nan".toList then .ok .nan
    else readUnsigned false rest

end BatchCompiler.Number.Binary64
