import BatchCompiler.Text.Column

/-!
# Paths

Paths as texts with `/` between their names. Everything here is lexical: `..` takes back the name
before it, whatever that name stands for.
-/

namespace BatchCompiler.Files

open Text

def isAbsolute (p : String) : Bool := startsWith "/" p

/-- Reduces names; `kept` holds those kept so far, the last one first. -/
def reduceNames (rooted : Bool) (kept : List String) : List String → List String
  | [] => kept.reverse
  | c :: rest =>
    if c = "" || c = "." then reduceNames rooted kept rest
    else if c = ".." then
      match kept with
      | [] => reduceNames rooted (if rooted then [] else [".."]) rest
      | k :: more => reduceNames rooted (if k = ".." then ".." :: kept else more) rest
    else reduceNames rooted (c :: kept) rest

def clean (p : String) : String :=
  let body := joinWith "/" (reduceNames (isAbsolute p) [] (splitAt '/' p))
  if isAbsolute p then "/" ++ body else if body = "" then "." else body

def dropTrailingSlashes (p : String) : String :=
  String.ofList (p.toList.reverse.dropWhile (· == '/')).reverse

def baseName (p : String) : String :=
  if p = "" then "."
  else
    let stem := dropTrailingSlashes p
    if stem = "" then "/" else (splitAt '/' stem).getLastD ""

def splitLast (p : String) : String × String :=
  let back := p.toList.reverse
  (String.ofList (back.dropWhile (· != '/')).reverse,
    String.ofList (back.takeWhile (· != '/')).reverse)

def directoryOf (p : String) : String := clean (splitLast p).1

def joinPath (p q : String) : String :=
  if p = "" then if q = "" then "" else clean q else clean (p ++ "/" ++ q)

/-- The path from the root, for a path given relative to `here`. -/
def absolute (here p : String) : String :=
  if isAbsolute p then clean p else joinPath here p

end BatchCompiler.Files
