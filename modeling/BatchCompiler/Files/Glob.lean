import BatchCompiler.Files.Host
import BatchCompiler.Files.Path

/-!
# Patterns for file names

`*` stands for any bytes and `?` for any one character, neither for a slash; `[…]` stands for one of
the characters listed, or with `^` for one not listed; a backslash takes the next character as it is.
-/

namespace BatchCompiler.Files

open Text

inductive Piece where
  | star
  | one
  | byte (b : UInt8)
  | set (negated : Bool) (ranges : List (Nat × Nat))
deriving DecidableEq, Repr

abbrev Pattern := List Piece

namespace Pattern

/-- A character of a set; it cannot be the last of the pattern. -/
def setChar? : List Char → Option (Char × List Char)
  | '-' :: _ => none
  | ']' :: _ => none
  | '\\' :: c :: d :: rest => some (c, d :: rest)
  | '\\' :: _ => none
  | c :: d :: rest => some (c, d :: rest)
  | _ => none

def range? (cs : List Char) : Option ((Nat × Nat) × List Char) := do
  let (lo, rest) ← setChar? cs
  match rest with
  | '-' :: rest => do
    let (hi, rest) ← setChar? rest
    some ((lo.toNat, hi.toNat), rest)
  | rest => some ((lo.toNat, lo.toNat), rest)

/-- The ranges up to the closing bracket, at least one. Each takes a character, so that `fuel` need
not exceed the number of characters. -/
def ranges? : (fuel : Nat) → List Char → Option (List (Nat × Nat) × List Char)
  | 0, _ => none
  | fuel + 1, cs => do
    let (r, rest) ← range? cs
    match rest with
    | ']' :: rest => some ([r], rest)
    | rest => do
      let (rs, rest) ← ranges? fuel rest
      some (r :: rs, rest)

def literal (c : Char) : Pattern := (encodeUtf8 (String.singleton c)).map .byte

/-- Reads a pattern; `none` stands for a malformed one. -/
def parseWithin : (fuel : Nat) → List Char → Option Pattern
  | 0, _ => none
  | _ + 1, [] => some []
  | fuel + 1, '*' :: rest => (parseWithin fuel rest).map (.star :: ·)
  | fuel + 1, '?' :: rest => (parseWithin fuel rest).map (.one :: ·)
  | _ + 1, ['\\'] => none
  | fuel + 1, '\\' :: c :: rest => (parseWithin fuel rest).map (literal c ++ ·)
  | fuel + 1, '[' :: '^' :: rest => do
    let (rs, rest) ← ranges? rest.length rest
    (parseWithin fuel rest).map (.set true rs :: ·)
  | fuel + 1, '[' :: rest => do
    let (rs, rest) ← ranges? rest.length rest
    (parseWithin fuel rest).map (.set false rs :: ·)
  | fuel + 1, c :: rest => (parseWithin fuel rest).map (literal c ++ ·)

def parse? (s : String) : Option Pattern := parseWithin (s.length + 1) s.toList

def slash : UInt8 := 0x2F

def isMatch : Pattern → Bytes → Bool
  | [], s => s.isEmpty
  | .star :: ps, s =>
    isMatch ps s || match s with
      | [] => false
      | b :: s => b != slash && isMatch (.star :: ps) s
  | .one :: ps, b :: s => b != slash && isMatch ps (s.drop (decodeFront b s).2)
  | .byte x :: ps, b :: s => x == b && isMatch ps s
  | .set negated rs :: ps, b :: s =>
    let n := (decodeFront b s).1.toNat
    (rs.any fun r => r.1 ≤ n && n ≤ r.2) != negated && isMatch ps (s.drop (decodeFront b s).2)
  | _ :: _, [] => false
termination_by ps s => (ps.length, s.length)

end Pattern

def hasMeta (p : String) : Bool :=
  p.toList.any fun c => c == '*' || c == '?' || c == '[' || c == '\\'

variable {m : Type → Type} [Monad m]

/-- The paths of a directory whose names match; `none` stands for a malformed pattern. -/
def matchesIn (host : Host m) (dir pattern : String) : m (Option (List String)) := do
  if (← host.kind? dir) ≠ some .directory then return some []
  let names := (← host.names dir).mergeSort fun a b => a ≤ b
  match Pattern.parse? pattern with
  | none => return if names.isEmpty then some [] else none
  | some ps =>
    return some ((names.filter fun n => Pattern.isMatch ps (encodeUtf8 n)).map (joinPath dir))

def matchesInAll (host : Host m) (pattern : String) : List String → m (Option (List String))
  | [] => return some []
  | d :: rest => do
    match ← matchesIn host d pattern with
    | none => return none
    | some found => return (← matchesInAll host pattern rest).map (found ++ ·)

/-- Expands a pattern whose directory part has at most `depth` slashes. -/
def expandWithin (host : Host m) : (depth : Nat) → String → m (Option (List String))
  | 0, _ => return none
  | depth + 1, pattern => do
    if (Pattern.parse? pattern).isNone then return none
    if !hasMeta pattern then
      return some (if (← host.kind? pattern).isSome then [pattern] else [])
    let (before, file) := splitLast pattern
    let dir := if before = "" then "." else if before = "/" then "/" else
      String.ofList before.toList.dropLast
    if !hasMeta dir then matchesIn host dir file
    else
      match ← expandWithin host depth dir with
      | none => return none
      | some dirs => matchesInAll host file dirs

def expand (host : Host m) (pattern : String) : m (Option (List String)) :=
  expandWithin host 10000 pattern

end BatchCompiler.Files
