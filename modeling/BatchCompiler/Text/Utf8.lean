/-!
# Bytes and characters

Decoding never fails: a byte that starts no well-formed sequence becomes U+FFFD and decoding goes
on with the next byte.
-/

namespace BatchCompiler

abbrev Bytes := List UInt8

namespace Text

def replacement : Char := Char.ofNat 0xFFFD

/-- The low six bits of a continuation byte that lies in the given interval. -/
def continuation? (lo hi : Nat) (b : UInt8) : Option Nat :=
  if lo ≤ b.toNat ∧ b.toNat ≤ hi then some (b.toNat % 64) else none

/-- Bounds on the second byte of a three-byte sequence: no overlong form, no surrogate. -/
def secondOfThree (b : UInt8) : Nat × Nat :=
  (if b.toNat == 0xE0 then 0xA0 else 0x80, if b.toNat == 0xED then 0x9F else 0xBF)

/-- Bounds on the second byte of a four-byte sequence: no overlong form, nothing past U+10FFFF. -/
def secondOfFour (b : UInt8) : Nat × Nat :=
  (if b.toNat == 0xF0 then 0x90 else 0x80, if b.toNat == 0xF4 then 0x8F else 0xBF)

def decode2? (a b : UInt8) : Option Char :=
  if 0xC2 ≤ a.toNat ∧ a.toNat ≤ 0xDF then
    (continuation? 0x80 0xBF b).map fun y => Char.ofNat (a.toNat % 32 * 64 + y)
  else none

def decode3? (a b c : UInt8) : Option Char :=
  if 0xE0 ≤ a.toNat ∧ a.toNat ≤ 0xEF then do
    let y ← continuation? (secondOfThree a).1 (secondOfThree a).2 b
    let z ← continuation? 0x80 0xBF c
    some (Char.ofNat (a.toNat % 16 * 4096 + y * 64 + z))
  else none

def decode4? (a b c d : UInt8) : Option Char :=
  if 0xF0 ≤ a.toNat ∧ a.toNat ≤ 0xF4 then do
    let x ← continuation? (secondOfFour a).1 (secondOfFour a).2 b
    let y ← continuation? 0x80 0xBF c
    let z ← continuation? 0x80 0xBF d
    some (Char.ofNat (a.toNat % 8 * 262144 + x * 4096 + y * 64 + z))
  else none

/-- The character at the front of `a :: rest` and how many bytes of `rest` it takes. -/
def decodeFront (a : UInt8) (rest : Bytes) : Char × Nat :=
  if a.toNat < 0x80 then (Char.ofNat a.toNat, 0)
  else match rest with
    | [] => (replacement, 0)
    | [b] => match decode2? a b with
      | some ch => (ch, 1)
      | none => (replacement, 0)
    | [b, c] => match decode2? a b, decode3? a b c with
      | some ch, _ => (ch, 1)
      | none, some ch => (ch, 2)
      | none, none => (replacement, 0)
    | b :: c :: d :: _ => match decode2? a b, decode3? a b c, decode4? a b c d with
      | some ch, _, _ => (ch, 1)
      | none, some ch, _ => (ch, 2)
      | none, none, some ch => (ch, 3)
      | none, none, none => (replacement, 0)

/-- Decodes after skipping `skip` bytes that belong to the character before. -/
def decodeAfter : (skip : Nat) → Bytes → List Char
  | _, [] => []
  | skip + 1, _ :: rest => decodeAfter skip rest
  | 0, b :: rest =>
    let front := decodeFront b rest
    front.1 :: decodeAfter front.2 rest

def decodeUtf8 (bytes : Bytes) : List Char :=
  decodeAfter 0 bytes

def encodeUtf8 (s : String) : Bytes :=
  s.toUTF8.toList

end Text

end BatchCompiler
