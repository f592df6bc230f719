import BatchCompiler.Script.Binding

/-!
# Rendering

A target program as the text of a script. Bodies of conditionals are indented, and an empty one
holds a remark so that the block is not empty.
-/

namespace BatchCompiler.Script

open Target

inductive RenderError where
  | unhandledStatement
  | tooManyIndices
deriving DecidableEq, Repr

def RenderError.message : RenderError → String
  | .unhandledStatement => "batch backend: unhandled statement <nil>"
  | .tooManyIndices =>
    "batch backend: more than " ++ Number.natText forVariables.length ++
      " variable list indices in scope"

def relation : CmpOp → String
  | .lt => "LSS"
  | .le => "LEQ"
  | .gt => "GTR"
  | .ge => "GEQ"
  | _ => ""

def conditionText (c : Comparison) : Draft String :=
  match c.op with
  | .eq => do
    let l ← quoted c.left
    let r ← quoted c.right
    pure ("\"" ++ l ++ "\"==\"" ++ r ++ "\"")
  | .ne => do
    let l ← quoted c.left
    let r ← quoted c.right
    pure ("not \"" ++ l ++ "\"==\"" ++ r ++ "\"")
  | op => do
    let l ← unquoted c.left
    let r ← unquoted c.right
    pure (l ++ " " ++ relation op ++ " " ++ r)

def argumentTexts (draft : List Fragment → Draft String) : List (List Fragment) → Draft (List String)
  | [] => pure []
  | a :: rest => do
    let a ← draft a
    let rest ← argumentTexts draft rest
    pure (a :: rest)

def inQuotes (fs : List Fragment) : Draft String := do
  let t ← quoted fs
  pure ("\"" ++ t ++ "\"")

/-- A label is called with quoted arguments; anything else is a command line. -/
def callText (callee : Fragment) (args : List (List Fragment)) : Draft String := do
  let command ← unquoted [callee]
  let args ← argumentTexts unquoted args
  pure (" ".intercalate (command :: args))

def labelCallText (label : String) (args : List (List Fragment)) : Draft String := do
  let args ← argumentTexts inQuotes args
  pure (" ".intercalate ("call" :: label :: args))

def headText : Stmt → Draft String
  | .absent => pure ""
  | .raw t => pure t
  | .comment t => pure ("rem " ++ doublePercent t)
  | .label n => pure (":" ++ n)
  | .jump t => pure ("goto :" ++ t)
  | .setText dst value => do
    let name ← writtenName dst
    let value ← quoted value
    pure ("set \"" ++ name ++ "=" ++ value ++ "\"")
  | .setNumber dst e => do
    let name ← writtenName dst
    let e ← arithText e
    pure ("set /a \"" ++ name ++ "=" ++ e ++ "\"")
  | .call (.text s) args =>
    if Text.startsWith ":" s then labelCallText s args else callText (.text s) args
  | .call callee args => callText callee args
  | .whenTrue c _ => do
    let c ← conditionText c
    pure ("if " ++ c ++ " (")
  | .choose c _ _ => do
    let c ← conditionText c
    pure ("if " ++ c ++ " (")

/-- Where lines are written: the line ending, the nesting depth, and the variables in force. -/
structure Layout where
  lineEnding : String
  depth : Nat := 0
  bound : Nat := 0

def Layout.line (l : Layout) (text : String) : String :=
  Text.spaces (4 * l.depth) ++ text ++ l.lineEnding

/-- Rendered text, and whether it needed more variables than there are. -/
structure Rendered where
  text : String := ""
  overflow : Bool := false

instance : Append Rendered where
  append a b := { text := a.text ++ b.text, overflow := a.overflow || b.overflow }

def renderHead (l : Layout) (s : Stmt) : Rendered × Nat :=
  let (text, b) := (headText s).run { outer := l.bound }
  ({ text := l.line (resolve (String.join b.loops ++ text)), overflow := b.overflow },
    b.loops.length)

def Layout.inner (l : Layout) (bound : Nat) : Layout :=
  { l with depth := l.depth + 1, bound := l.bound + bound }

def Layout.plain (l : Layout) (text : String) : Rendered :=
  { text := l.line text }

mutual

def renderStmt (l : Layout) : Stmt → Except RenderError Rendered
  | .absent => throw .unhandledStatement
  | .raw t => pure (l.plain t)
  | s@(.whenTrue _ body) => do
    let (head, bound) := renderHead l s
    let inner := l.inner bound
    let bodyText ← if body.isEmpty then pure (inner.plain "rem") else renderStmts inner body
    pure (head ++ bodyText ++ l.plain ")")
  | s@(.choose _ thenBody elseBody) => do
    let (head, bound) := renderHead l s
    let inner := l.inner bound
    let thenText ← if thenBody.isEmpty then pure (inner.plain "rem") else renderStmts inner thenBody
    let elseText ← if elseBody.isEmpty then pure (inner.plain "rem") else renderStmts inner elseBody
    pure (head ++ thenText ++ l.plain ") else (" ++ elseText ++ l.plain ")")
  | s => pure (renderHead l s).1

def renderStmts (l : Layout) : List Stmt → Except RenderError Rendered
  | [] => pure {}
  | s :: rest => do
    let s ← renderStmt l s
    let rest ← renderStmts l rest
    pure (s ++ rest)

end

/-- The script of a program. A statement that cannot be rendered is reported before a lack of
variables. -/
def render (lineEnding : String) (p : Program) : Except RenderError String := do
  let r ← renderStmts { lineEnding := lineEnding } p
  if r.overflow then throw .tooManyIndices else pure r.text

end BatchCompiler.Script
