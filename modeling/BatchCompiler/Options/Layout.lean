import BatchCompiler.Crash
import BatchCompiler.Text.Column

/-!
# Layout of help texts

Words are filled into lines greedily: a line takes the next word whenever the line with it is at most
`width` bytes long. An entry is a row of a left column, a filled usage text and a right column.
-/

namespace BatchCompiler.Options

open Text

def joinWords (ws : List String) : String := joinWith " " ws

def fill (width : Int) (line : List String) : List String → List (List String)
  | [] => [line]
  | w :: rest =>
    if (joinWords (line ++ [w])).utf8ByteSize > width then line :: fill width [w] rest
    else fill width (line ++ [w]) rest

def fillWords (width : Int) : List String → List (List String)
  | [] => []
  | w :: rest => fill width [w] rest

/-- The lines of a text; without a positive width each word is a line. -/
def wrap (text : String) (width : Int) : List String :=
  let ws := words text
  if width ≤ 0 then ws else (fillWords width ws).map joinWords

def indentAt (level : Nat) : String := spaces (4 * level)

def entryText (terminal : Int) (left usage right : String) (leftWidth usageWidth : Int) : String :=
  let indent := indentAt 2
  let room := max (terminal - indent.utf8ByteSize - leftWidth - 3 - right.utf8ByteSize) 10
  let lines := wrap usage room
  let first := lines.headD ""
  let row :=
    if right = "" then indent ++ padRight leftWidth left ++ " " ++ first ++ "\n"
    else
      indent ++ padRight leftWidth left ++ " " ++ padRight (min usageWidth room) first ++ "  " ++
        right ++ "\n"
  let margin := spaces (leftWidth + 1).toNat
  row ++ String.join (lines.tail.map fun line => indent ++ margin ++ line ++ "\n")

/-- An entry with a left column of any width; continued lines need a margin one wider than it. -/
def entryText? (terminal : Int) (left usage right : String) (leftWidth usageWidth : Int) :
    Except Crash String :=
  if leftWidth + 1 < 0 then .error .negativeMargin
  else .ok (entryText terminal left usage right leftWidth usageWidth)

end BatchCompiler.Options
