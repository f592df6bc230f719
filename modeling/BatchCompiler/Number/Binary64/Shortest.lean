import BatchCompiler.Number.Binary64.Basic
import BatchCompiler.Number.Integer

/-!
# The shortest decimal of a floating-point value

Of all decimals that round to the value, those with the fewest digits are considered, and of these
the nearest one is taken. The text is positional while the decimal exponent is small.
-/

namespace BatchCompiler.Number.Binary64

/-- The decimal `0.d₁d₂… * 10 ^ point`, without trailing zeros. -/
structure Decimal where
  digits : List Char
  point : Int
deriving Repr

/-- A value and the ends of the interval of reals that round to it, over one denominator. -/
structure Neighbourhood where
  low : Nat
  value : Nat
  high : Nat
  denominator : Nat
  closed : Bool

def neighbourhood (mantissa : Nat) (exponent : Int) : Neighbourhood :=
  let low := if mantissa = 0x10000000000000 ∧ minExponent < exponent then 4 * mantissa - 1 else 4 * mantissa - 2
  let unit := exponent - 2
  let scale := if 0 ≤ unit then Nat.pow 2 unit.toNat else 1
  { low := low * scale
    value := 4 * mantissa * scale
    high := (4 * mantissa + 2) * scale
    denominator := if 0 ≤ unit then 1 else Nat.pow 2 (-unit).toNat
    closed := mantissa % 2 = 0 }

/-- The `point` for which the value lies between `10 ^ (point - 1)` and `10 ^ point`. -/
def Neighbourhood.point (n : Neighbourhood) : Int :=
  if n.denominator ≤ n.value then (Nat.toDigits 10 (n.value / n.denominator)).length
  else
    let zeros := (List.range 400).find? fun j => n.denominator ≤ n.value * Nat.pow 10 j
    1 - (zeros.getD 400 : Int)

/-- The best decimal with `count` digits, if one of them rounds to the value. -/
def Neighbourhood.withDigits? (n : Neighbourhood) (point : Int) (count : Nat) : Option Nat :=
  let shift := point - count
  let up := if shift < 0 then Nat.pow 10 (-shift).toNat else 1
  let unit := if shift < 0 then n.denominator else n.denominator * Nat.pow 10 shift.toNat
  let low := n.low * up
  let value := n.value * up
  let high := n.high * up
  let below := value / unit
  let downFits := if n.closed then low ≤ below * unit else low < below * unit
  let upFits := if n.closed then (below + 1) * unit ≤ high else (below + 1) * unit < high
  if downFits ∧ upFits then some (roundHalfEven (value, unit))
  else if downFits then some below
  else if upFits then some (below + 1)
  else none

def Neighbourhood.shortest (n : Neighbourhood) : Decimal :=
  let point := n.point
  let found := (List.range 18).findSome? fun k =>
    (n.withDigits? point (k + 1)).map fun d => (k + 1, d)
  let (count, d) := found.getD (1, 0)
  let digits := Nat.toDigits 10 d
  { digits := (digits.reverse.dropWhile (· == '0')).reverse
    point := point + (digits.length - count : Int) }

/-- Where positional notation ends and how an exponent is written. -/
structure Layout where
  leastPositional : Int
  leastScientific : Int
  exponentDigits : Nat

def padLeft (width : Nat) (digits : List Char) : List Char :=
  List.replicate (width - digits.length) '0' ++ digits

def scientific (l : Layout) (d : Decimal) : List Char :=
  let exponent := d.point - 1
  let mantissa := match d.digits with
    | [] => ['0']
    | [c] => [c]
    | c :: rest => c :: '.' :: rest
  let sign := if exponent < 0 then '-' else '+'
  mantissa ++ 'e' :: sign :: padLeft l.exponentDigits (digitsOf exponent.natAbs)

def positional (d : Decimal) : List Char :=
  let whole := if d.point ≤ 0 then ['0']
    else d.digits.take d.point.toNat ++ List.replicate (d.point.toNat - d.digits.length) '0'
  let fraction := if d.point < 0 then List.replicate (-d.point).toNat '0' ++ d.digits
    else d.digits.drop d.point.toNat
  if fraction.isEmpty then whole else whole ++ '.' :: fraction

/-- Outlines write numbers positionally below a million, and exponents with two digits or more. -/
def outlineLayout : Layout :=
  { leastPositional := -4, leastScientific := 6, exponentDigits := 2 }

def decimalText (l : Layout) (d : Decimal) : List Char :=
  let exponent := d.point - 1
  if exponent < l.leastPositional ∨ l.leastScientific ≤ exponent then scientific l d else positional d

def text : Binary64 → String
  | .nan => "NaN"
  | .infinity negative => if negative then "-Inf" else "+Inf"
  | .finite negative mantissa exponent =>
    let d : Decimal :=
      if mantissa = 0 then { digits := [], point := 0 } else (neighbourhood mantissa exponent).shortest
    String.ofList (if negative then '-' :: decimalText outlineLayout d
      else decimalText outlineLayout d)

end BatchCompiler.Number.Binary64
