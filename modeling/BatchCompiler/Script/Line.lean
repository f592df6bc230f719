import BatchCompiler.Text.Blank

/-!
# Script lines

A caret or exclamation mark of a literal needs more or fewer carets in front of it, depending on
whether it stands in quotes and whether the finished line goes through delayed expansion, which it
does when it contains an exclamation mark. Lines are therefore drafted with marks, the first four
control characters, that are resolved once the line is complete.
-/

namespace BatchCompiler.Script

def quotedCaret : Char := Char.ofNat 0

def quotedBang : Char := Char.ofNat 1

def unquotedCaret : Char := Char.ofNat 2

def unquotedBang : Char := Char.ofNat 3

def expands (draft : List Char) : Bool :=
  draft.any fun c => c == '!' || c == quotedBang || c == unquotedBang

def resolveChar (expanded : Bool) (c : Char) : List Char :=
  if c == quotedCaret then if expanded then ['^', '^'] else ['^']
  else if c == quotedBang then ['^', '!']
  else if c == unquotedCaret then if expanded then ['^', '^', '^', '^'] else ['^', '^']
  else if c == unquotedBang then ['^', '^', '!']
  else [c]

def resolve (draft : String) : String :=
  let cs := draft.toList
  String.ofList (cs.flatMap (resolveChar (expands cs)))

def quotedChar (c : Char) : List Char :=
  if c == '%' then ['%', '%']
  else if c == '^' then [quotedCaret]
  else if c == '!' then [quotedBang]
  else [c]

def isOperatorChar (c : Char) : Bool :=
  c == '&' || c == '|' || c == '<' || c == '>' || c == '(' || c == ')'

def unquotedChar (c : Char) : List Char :=
  if c == '%' then ['%', '%']
  else if c == '^' then [unquotedCaret]
  else if c == '!' then [unquotedBang]
  else if isOperatorChar c then ['^', c]
  else [c]

def quotedText (s : String) : String :=
  String.ofList (s.toList.flatMap quotedChar)

def unquotedText (s : String) : String :=
  String.ofList (s.toList.flatMap unquotedChar)

/-- A percent sign is written twice. -/
def doublePercent (s : String) : String :=
  String.ofList (s.toList.flatMap fun c => if c == '%' then ['%', '%'] else [c])

end BatchCompiler.Script
