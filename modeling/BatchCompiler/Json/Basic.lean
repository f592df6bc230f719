import BatchCompiler.Text.Column
import BatchCompiler.Text.Quoted

/-!
# JSON values and their text

A number is held as it is written and the members of an object in their order. The text of a value
is indented by two blanks a level; characters that mean something in a web page are escaped.
-/

namespace BatchCompiler.Json

open Text

inductive Value where
  | null
  | bool (b : Bool)
  | number (literal : String)
  | string (s : String)
  | array (items : List Value)
  | object (members : List (String × Value))

def unicodeEscape (n : Nat) : List Char := '\\' :: 'u' :: hexPadded 4 n

def escapeChar (c : Char) : List Char :=
  if c == '"' || c == '\\' then ['\\', c]
  else if c == '\n' then ['\\', 'n']
  else if c == '\r' then ['\\', 'r']
  else if c == '\t' then ['\\', 't']
  else if c.toNat == 8 then ['\\', 'b']
  else if c.toNat == 12 then ['\\', 'f']
  else if c.toNat < 0x20 || c == '<' || c == '>' || c == '&' || c.toNat == 0x2028 ||
      c.toNat == 0x2029 then unicodeEscape c.toNat
  else [c]

def stringText (s : String) : String :=
  String.ofList ('"' :: s.toList.flatMap escapeChar ++ ['"'])

def newline (level : Nat) : String := "\n" ++ spaces (2 * level)

namespace Value

/-- The parts of an array or object, each on a line of its own. -/
def block (level : Nat) (opening closing : String) (parts : List String) : String :=
  if parts.isEmpty then opening ++ closing
  else
    opening ++ newline (level + 1) ++ joinWith ("," ++ newline (level + 1)) parts ++
      newline level ++ closing

mutual

def text (level : Nat) : Value → String
  | null => "null"
  | bool b => if b then "true" else "false"
  | number literal => literal
  | string s => stringText s
  | array items => block level "[" "]" (itemTexts (level + 1) items)
  | object members => block level "\x7b" "\x7d" (memberTexts (level + 1) members)

def itemTexts (level : Nat) : List Value → List String
  | [] => []
  | v :: rest => text level v :: itemTexts level rest

def memberTexts (level : Nat) : List (String × Value) → List String
  | [] => []
  | (k, v) :: rest => (stringText k ++ ": " ++ text level v) :: memberTexts level rest

end

def document (v : Value) : String := v.text 0

end Value

end BatchCompiler.Json
