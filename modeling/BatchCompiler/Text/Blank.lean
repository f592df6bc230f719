/-!
# Blanks, trimming and words

White space is the Unicode property White_Space. Trimming removes it at both ends of a text and
`words` cuts a text at it.
-/

namespace BatchCompiler.Text

def isBlank (c : Char) : Bool :=
  let n := c.toNat
  (9 ≤ n && n ≤ 13) || n == 0x20 || n == 0x85 || n == 0xA0 || n == 0x1680 ||
    (0x2000 ≤ n && n ≤ 0x200A) || n == 0x2028 || n == 0x2029 || n == 0x202F || n == 0x205F ||
    n == 0x3000

def trimChars (cs : List Char) : List Char :=
  ((cs.dropWhile isBlank).reverse.dropWhile isBlank).reverse

def trim (s : String) : String :=
  String.ofList (trimChars s.toList)

/-- Cuts at blanks; `word` holds the current word in reverse. -/
def wordsFrom (word : List Char) : List Char → List (List Char)
  | [] => if word.isEmpty then [] else [word.reverse]
  | c :: rest =>
    if isBlank c then
      if word.isEmpty then wordsFrom [] rest else word.reverse :: wordsFrom [] rest
    else wordsFrom (c :: word) rest

def words (s : String) : List String :=
  (wordsFrom [] s.toList).map String.ofList

/-- Cuts at every occurrence of one character; `piece` holds the current piece in reverse. -/
def splitFrom (sep : Char) (piece : List Char) : List Char → List (List Char)
  | [] => [piece.reverse]
  | c :: rest =>
    if c == sep then piece.reverse :: splitFrom sep [] rest else splitFrom sep (c :: piece) rest

def splitAt (sep : Char) (s : String) : List String :=
  (splitFrom sep [] s.toList).map String.ofList

def afterLead? (lead : List Char) (s : List Char) : Option (List Char) :=
  match lead, s with
  | [], s => some s
  | _ :: _, [] => none
  | a :: lead, c :: s => if a == c then afterLead? lead s else none

def startsWith (lead s : String) : Bool :=
  (afterLead? lead.toList s.toList).isSome

def dropLead (lead s : String) : String :=
  match afterLead? lead.toList s.toList with
  | some rest => String.ofList rest
  | none => s

def occursIn (part : List Char) : List Char → Bool
  | [] => part.isEmpty
  | c :: rest => (afterLead? part (c :: rest)).isSome || occursIn part rest

def contains (s part : String) : Bool :=
  occursIn part.toList s.toList

def spaces (n : Nat) : String :=
  String.ofList (List.replicate n ' ')

end BatchCompiler.Text
