import BatchCompiler.Text.Blank

/-!
# Columns of text

Texts padded with blanks to a number of characters. A negative width counts by its size.
-/

namespace BatchCompiler.Text

def padRight (width : Int) (s : String) : String :=
  s ++ spaces (width.natAbs - s.length)

def padLeft (width : Nat) (s : String) : String :=
  spaces (width - s.length) ++ s

def joinWith (sep : String) : List String → String
  | [] => ""
  | [s] => s
  | s :: rest => s ++ sep ++ joinWith sep rest

/-- The part before the first `sep`, and the part after it if there is one. -/
def cutOnce (sep : Char) : List Char → List Char × Option (List Char)
  | [] => ([], none)
  | c :: rest =>
    if c == sep then ([], some rest)
    else
      let (before, after) := cutOnce sep rest
      (c :: before, after)

end BatchCompiler.Text
