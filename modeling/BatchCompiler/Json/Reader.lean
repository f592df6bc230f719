import BatchCompiler.Json.Basic
import BatchCompiler.Text.Utf8

/-!
# Reading JSON

A reader over bytes that names the first byte that cannot stand where it stands. The end of the text
counts as a blank: where a blank is wrong the blank is named, and elsewhere the text has ended early.
-/

namespace BatchCompiler.Json

open Text

inductive Place where
  | value
  | key
  | afterKey
  | afterPair
  | afterElement
  | inString
  | inEscape
  | inHex
  | inNumber
  | afterPoint
  | inExponent
  | inWord (word : String) (expected : Char)
  | afterTop
  | tooDeep
deriving DecidableEq, Repr

def Place.text : Place → String
  | .value => "looking for beginning of value"
  | .key => "looking for beginning of object key string"
  | .afterKey => "after object key"
  | .afterPair => "after object key:value pair"
  | .afterElement => "after array element"
  | .inString => "in string literal"
  | .inEscape => "in string escape code"
  | .inHex => "in \\u hexadecimal character escape"
  | .inNumber => "in numeric literal"
  | .afterPoint => "after decimal point in numeric literal"
  | .inExponent => "in exponent of numeric literal"
  | .inWord word expected =>
    "in literal " ++ word ++ " (expecting '" ++ String.singleton expected ++ "')"
  | .afterTop => "after top-level value"
  | .tooDeep => "exceeded max depth"

inductive SyntaxError where
  | endOfText
  | wrong (byte : UInt8) (place : Place)
deriving DecidableEq, Repr

def SyntaxError.message : SyntaxError → String
  | .endOfText => "unexpected end of JSON input"
  | .wrong byte place =>
    "invalid character '" ++ String.ofList (quoteChar '\'' (Char.ofNat byte.toNat)) ++ "' " ++
      place.text

abbrev Step := Except SyntaxError

def isSpace (b : UInt8) : Bool := b == 0x20 || b == 0x09 || b == 0x0A || b == 0x0D

def skipSpace (bs : Bytes) : Bytes := bs.dropWhile isSpace

def isByte (c : Char) (b : UInt8) : Bool := b.toNat == c.toNat

/-- The front of the text is wrong, and so would a blank be. -/
def wrongAt (place : Place) : Bytes → SyntaxError
  | [] => .wrong 0x20 place
  | b :: _ => .wrong b place

/-- The front of the text is wrong, where a blank would be skipped. -/
def wrongAfterSpace (place : Place) : Bytes → SyntaxError
  | [] => .endOfText
  | b :: _ => .wrong b place

def word (name : String) (v : Value) : List Char → Bytes → Step (Value × Bytes)
  | [], bs => .ok (v, bs)
  | c :: cs, b :: bs =>
    if isByte c b then word name v cs bs else .error (.wrong b (.inWord name c))
  | c :: _, [] => .error (.wrong 0x20 (.inWord name c))

def isDigit (b : UInt8) : Bool := 0x30 ≤ b && b ≤ 0x39

def digits (place : Place) (bs : Bytes) : Step (Bytes × Bytes) :=
  match bs.takeWhile isDigit with
  | [] => .error (wrongAt place bs)
  | ds => .ok (ds, bs.dropWhile isDigit)

def integerPart (bs : Bytes) : Step (Bytes × Bytes) :=
  match bs with
  | 0x30 :: rest => .ok ([0x30], rest)
  | bs => digits .inNumber bs

def fractionPart (bs : Bytes) : Step (Bytes × Bytes) :=
  match bs with
  | 0x2E :: rest => (digits .afterPoint rest).map fun (ds, rest) => (0x2E :: ds, rest)
  | bs => .ok ([], bs)

def exponentPart (bs : Bytes) : Step (Bytes × Bytes) :=
  match bs with
  | [] => .ok ([], [])
  | e :: rest =>
    if isByte 'e' e || isByte 'E' e then
      let (sign, rest) : Bytes × Bytes := match rest with
        | 0x2B :: rest => ([0x2B], rest)
        | 0x2D :: rest => ([0x2D], rest)
        | rest => ([], rest)
      (digits .inExponent rest).map fun (ds, rest) => (e :: sign ++ ds, rest)
    else .ok ([], bs)

def number (bs : Bytes) : Step (Value × Bytes) := do
  let (sign, bs) : Bytes × Bytes := match bs with
    | 0x2D :: rest => ([0x2D], rest)
    | bs => ([], bs)
  let (int, bs) ← integerPart bs
  let (fraction, bs) ← fractionPart bs
  let (exponent, bs) ← exponentPart bs
  .ok (.number (String.ofList (decodeUtf8 (sign ++ int ++ fraction ++ exponent))), bs)

/-- A number of four hexadecimal digits, `n` of which are left to read. -/
def hex (acc : Nat) : (n : Nat) → Bytes → Step (Nat × Bytes)
  | 0, bs => .ok (acc, bs)
  | n + 1, b :: bs =>
    let c := Char.ofNat b.toNat
    if isHexDigit c then hex (acc * 16 + (digitValue? c).getD 0) n bs
    else .error (.wrong b .inHex)
  | _ + 1, [] => .error (.wrong 0x20 .inHex)

def isSurrogate (n : Nat) : Bool := 0xD800 ≤ n && n ≤ 0xDFFF

/-- The character of a numbered escape. A high half that the low half follows makes one character
with it; a half alone is replaced. -/
def escapedUnit (unit : Nat) (bs : Bytes) : Step (Char × Bytes) :=
  if !isSurrogate unit then .ok (Char.ofNat unit, bs)
  else match bs with
    | 0x5C :: 0x75 :: rest => do
      let (low, rest) ← hex 0 4 rest
      if unit < 0xDC00 && 0xDC00 ≤ low && low ≤ 0xDFFF then
        .ok (Char.ofNat (0x10000 + (unit - 0xD800) * 0x400 + (low - 0xDC00)), rest)
      else .ok (replacement, bs)
    | bs => .ok (replacement, bs)

def escapedLetter? (b : UInt8) : Option Char :=
  match Char.ofNat b.toNat with
  | 'b' => some '\x08'
  | 'f' => some '\x0c'
  | 'n' => some '\n'
  | 'r' => some '\r'
  | 't' => some '\t'
  | '\\' => some '\\'
  | '/' => some '/'
  | '"' => some '"'
  | _ => none

/-- The bytes of a string up to its closing quote. Each step takes a byte. -/
def stringBytes : (fuel : Nat) → Bytes → Step (Bytes × Bytes)
  | 0, _ => .error .endOfText
  | _ + 1, [] => .error .endOfText
  | fuel + 1, b :: bs =>
    if isByte '"' b then .ok ([], bs)
    else if b < 0x20 then .error (.wrong b .inString)
    else if !isByte '\\' b then do
      let (more, rest) ← stringBytes fuel bs
      .ok (b :: more, rest)
    else match bs with
      | [] => .error (.wrong 0x20 .inEscape)
      | e :: bs => do
        let (c, bs) ← match escapedLetter? e with
          | some c => .ok (c, bs)
          | none =>
            if isByte 'u' e then do
              let (unit, bs) ← hex 0 4 bs
              escapedUnit unit bs
            else .error (.wrong e .inEscape)
        let (more, rest) ← stringBytes fuel bs
        .ok (encodeUtf8 (String.singleton c) ++ more, rest)

def string (bs : Bytes) : Step (String × Bytes) :=
  (stringBytes (bs.length + 1) bs).map fun (s, rest) => (String.ofList (decodeUtf8 s), rest)

def maxDepth : Nat := 10000

mutual

def value : (fuel : Nat) → (depth : Nat) → Bytes → Step (Value × Bytes)
  | 0, _, _ => .error .endOfText
  | fuel + 1, depth, bs => match skipSpace bs with
    | [] => .error .endOfText
    | b :: rest =>
      if isByte '\x7b' b then
        if depth ≥ maxDepth then .error (.wrong b .tooDeep)
        else match skipSpace rest with
          | 0x7D :: rest => .ok (.object [], rest)
          | rest => do
            let (ms, rest) ← members fuel (depth + 1) rest
            .ok (.object ms, rest)
      else if isByte '[' b then
        if depth ≥ maxDepth then .error (.wrong b .tooDeep)
        else match skipSpace rest with
          | 0x5D :: rest => .ok (.array [], rest)
          | rest => do
            let (vs, rest) ← elements fuel (depth + 1) rest
            .ok (.array vs, rest)
      else if isByte '"' b then (string rest).map fun (s, rest) => (.string s, rest)
      else if isByte 't' b then word "true" (.bool true) ['r', 'u', 'e'] rest
      else if isByte 'f' b then word "false" (.bool false) ['a', 'l', 's', 'e'] rest
      else if isByte 'n' b then word "null" .null ['u', 'l', 'l'] rest
      else if isByte '-' b || isDigit b then number (b :: rest)
      else .error (.wrong b .value)

def elements : (fuel : Nat) → (depth : Nat) → Bytes → Step (List Value × Bytes)
  | 0, _, _ => .error .endOfText
  | fuel + 1, depth, bs => do
    let (v, rest) ← value fuel depth bs
    match skipSpace rest with
    | 0x2C :: rest => do
      let (vs, rest) ← elements fuel depth rest
      .ok (v :: vs, rest)
    | 0x5D :: rest => .ok ([v], rest)
    | rest => .error (wrongAfterSpace .afterElement rest)

def members : (fuel : Nat) → (depth : Nat) → Bytes → Step (List (String × Value) × Bytes)
  | 0, _, _ => .error .endOfText
  | fuel + 1, depth, bs => match skipSpace bs with
    | 0x22 :: rest => do
      let (k, rest) ← string rest
      match skipSpace rest with
      | 0x3A :: rest => do
        let (v, rest) ← value fuel depth rest
        match skipSpace rest with
        | 0x2C :: rest => do
          let (ms, rest) ← members fuel depth rest
          .ok ((k, v) :: ms, rest)
        | 0x7D :: rest => .ok ([(k, v)], rest)
        | rest => .error (wrongAfterSpace .afterPair rest)
      | rest => .error (wrongAfterSpace .afterKey rest)
    | rest => .error (wrongAfterSpace .key rest)

end

/-- Reads a text that holds one value and nothing else. A value takes a byte for every two steps. -/
def parse (bs : Bytes) : Except SyntaxError Value := do
  let (v, rest) ← value (2 * bs.length + 2) 0 bs
  match skipSpace rest with
  | [] => .ok v
  | b :: _ => .error (.wrong b .afterTop)

end BatchCompiler.Json
