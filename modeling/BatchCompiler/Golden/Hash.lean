import BatchCompiler.Text.Utf8

/-!
# Hash of a source file

A 64-bit hash of bytes, taken with seed zero: four lanes over stripes of 32 bytes, then the bytes
that are left in words of eight, four and one, then a final mix.
-/

namespace BatchCompiler.Golden.Hash

def prime1 : UInt64 := 11400714785074694791

def prime2 : UInt64 := 14029467366897019727

def prime3 : UInt64 := 1609587929392839161

def prime4 : UInt64 := 9650029242287828579

def prime5 : UInt64 := 2870177450012600261

def rotateLeft (x n : UInt64) : UInt64 := (x <<< n) ||| (x >>> (64 - n))

def word : Bytes → UInt64
  | [] => 0
  | b :: rest => b.toUInt64 ||| (word rest <<< 8)

def round (lane input : UInt64) : UInt64 := rotateLeft (lane + input * prime2) 31 * prime1

def merge (hash lane : UInt64) : UInt64 := (hash ^^^ round 0 lane) * prime1 + prime4

structure Lanes where
  a : UInt64 := prime1 + prime2
  b : UInt64 := prime2
  c : UInt64 := 0
  d : UInt64 := 0 - prime1

def Lanes.stripe (l : Lanes) (bs : Bytes) : Lanes :=
  { a := round l.a (word (bs.take 8))
    b := round l.b (word ((bs.drop 8).take 8))
    c := round l.c (word ((bs.drop 16).take 8))
    d := round l.d (word ((bs.drop 24).take 8)) }

def Lanes.hash (l : Lanes) : UInt64 :=
  let mixed := rotateLeft l.a 1 + rotateLeft l.b 7 + rotateLeft l.c 12 + rotateLeft l.d 18
  merge (merge (merge (merge mixed l.a) l.b) l.c) l.d

/-- Takes in whole stripes; what is left is shorter than one. -/
def stripes (l : Lanes) (bs : Bytes) : Lanes × Bytes :=
  if 32 ≤ bs.length then stripes (l.stripe bs) (bs.drop 32) else (l, bs)
termination_by bs.length
decreasing_by simp only [List.length_drop]; omega

def tail (hash : UInt64) (bs : Bytes) : UInt64 :=
  if 8 ≤ bs.length then
    tail (rotateLeft (hash ^^^ round 0 (word (bs.take 8))) 27 * prime1 + prime4) (bs.drop 8)
  else if 4 ≤ bs.length then
    tail (rotateLeft (hash ^^^ word (bs.take 4) * prime1) 23 * prime2 + prime3) (bs.drop 4)
  else bs.foldl (fun h b => rotateLeft (h ^^^ b.toUInt64 * prime5) 11 * prime1) hash
termination_by bs.length
decreasing_by all_goals simp only [List.length_drop]; omega

def avalanche (h : UInt64) : UInt64 :=
  let h := (h ^^^ (h >>> 33)) * prime2
  let h := (h ^^^ (h >>> 29)) * prime3
  h ^^^ (h >>> 32)

def hash (bs : Bytes) : UInt64 :=
  let size := UInt64.ofNat bs.length
  if 32 ≤ bs.length then
    let (lanes, rest) := stripes {} bs
    avalanche (tail (lanes.hash + size) rest)
  else avalanche (tail (prime5 + size) bs)

def text (bs : Bytes) : String := String.ofList (Nat.toDigits 16 (hash bs).toNat)

end BatchCompiler.Golden.Hash
