import BatchCompiler.Text.Blank

/-!
# Durations on the command line

A duration is a sequence of decimals with units, such as `1m30.5s`, with a sign in front. It counts
nanoseconds; what is left of a nanosecond is dropped.
-/

namespace BatchCompiler.Golden.Duration

open Text

def unit? : List Char → Option Nat
  | ['n', 's'] => some 1
  | ['u', 's'] => some 1000
  | ['µ', 's'] => some 1000
  | ['μ', 's'] => some 1000
  | ['m', 's'] => some 1000000
  | ['s'] => some 1000000000
  | ['m'] => some 60000000000
  | ['h'] => some 3600000000000
  | _ => none

def digitsValue (ds : List Char) : Nat :=
  ds.foldl (fun n c => n * 10 + (c.toNat - '0'.toNat)) 0

/-- The largest number of nanoseconds, counting both signs. -/
def bound : Nat := 0x8000000000000000

/-- Adds up the parts of a duration. Each takes a character. -/
def parts? : (fuel : Nat) → (total : Nat) → List Char → Option Nat
  | _, total, [] => some total
  | 0, _, _ :: _ => none
  | fuel + 1, total, cs =>
    let whole := cs.takeWhile Char.isDigit
    let rest := cs.dropWhile Char.isDigit
    let (fraction, rest) := match rest with
      | '.' :: rest => (rest.takeWhile Char.isDigit, rest.dropWhile Char.isDigit)
      | rest => ([], rest)
    if whole.isEmpty && fraction.isEmpty then none
    else
      let name := rest.takeWhile fun c => !(c == '.' || c.isDigit)
      match unit? name with
      | none => none
      | some unit =>
        let ns := digitsValue whole * unit + digitsValue fraction * unit / Nat.pow 10 fraction.length
        if total + ns > bound then none
        else parts? fuel (total + ns) (rest.drop name.length)

def unsigned? (cs : List Char) : Option Nat :=
  if cs = ['0'] then some 0 else if cs.isEmpty then none else parts? cs.length 0 cs

def parse? (s : String) : Option Int :=
  match s.toList with
  | '-' :: cs => (unsigned? cs).map fun n => -(n : Int)
  | '+' :: cs => (unsigned? cs).bind below
  | cs => (unsigned? cs).bind below
where
  below (n : Nat) : Option Int := if n < bound then some (n : Int) else none

end BatchCompiler.Golden.Duration
