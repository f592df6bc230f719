/-!
# Floating-point values

Double precision numbers as exact data: a finite value is `mantissa * 2 ^ exponent`. Rounding goes
to the nearest representable value and a tie goes to the even mantissa.
-/

namespace BatchCompiler.Number

inductive Binary64 where
  | nan
  | infinity (negative : Bool)
  | finite (negative : Bool) (mantissa : Nat) (exponent : Int)
deriving DecidableEq, Repr

namespace Binary64

def minExponent : Int := -1074

def maxExponent : Int := 971

/-- `numerator / denominator` measured in units of `2 ^ exponent`, as a fraction. -/
def inUnits (numerator denominator : Nat) (exponent : Int) : Nat × Nat :=
  if 0 ≤ exponent then (numerator, denominator * Nat.pow 2 exponent.toNat)
  else (numerator * Nat.pow 2 (-exponent).toNat, denominator)

/-- The nearest integer to a fraction; a tie goes to the even one. -/
def roundHalfEven (fraction : Nat × Nat) : Nat :=
  let q := fraction.1 / fraction.2
  let r := fraction.1 % fraction.2
  if 2 * r < fraction.2 then q
  else if 2 * r = fraction.2 ∧ q % 2 = 0 then q
  else q + 1

/-- The exponent at which the mantissa of a positive fraction has 53 bits, or the least one. -/
def exponentFor (numerator denominator : Nat) : Int :=
  let guess : Int := max ((Nat.log2 numerator : Int) - Nat.log2 denominator - 53) minExponent
  let scaled := inUnits numerator denominator guess
  if scaled.1 / scaled.2 < 0x20000000000000 then guess else guess + 1

/-- The value nearest to a positive fraction; `none` when it is too large. -/
def nearest? (negative : Bool) (numerator denominator : Nat) : Option Binary64 :=
  let exponent := exponentFor numerator denominator
  let mantissa := roundHalfEven (inUnits numerator denominator exponent)
  let rounded : Nat × Int :=
    if mantissa = 0x20000000000000 then (0x10000000000000, exponent + 1) else (mantissa, exponent)
  if maxExponent < rounded.2 then none else some (.finite negative rounded.1 rounded.2)

def zero (negative : Bool) : Binary64 := .finite negative 0 minExponent

end Binary64

end BatchCompiler.Number
