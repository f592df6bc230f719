import BatchCompiler.Number.Integer
import BatchCompiler.Script.Line
import BatchCompiler.Target.Basic

/-!
# Reading variables

Delayed expansion does not nest, so a variable index of a list element that is read is bound first,
to a variable of a `for` loop in front of the line. Such variables are in force through the whole
block that the line opens, so a line inside must not use them again.
-/

namespace BatchCompiler.Script

open Target

def forVariables : List Char :=
  "abcdefghijklmnopqrstuvwxyzABCDEFGHIJKLMNOPQRSTUVWXYZ".toList

/-- The loops in front of the line being drafted; `outer` counts those of the lines around it. -/
structure Bindings where
  outer : Nat
  loops : List String := []
  overflow : Bool := false

abbrev Draft := StateM Bindings

/-- Binds a value to the next free variable. When there is none, the last one serves. -/
def bindIndex (value : String) : Draft String := fun b =>
  let n := b.outer + b.loops.length
  let overflow := decide (forVariables.length ≤ n)
  let letter := if overflow then 'Z' else forVariables.getD n 'Z'
  let name := String.ofList ['%', '%', letter]
  (name, { b with
    loops := b.loops ++ ["for " ++ name ++ " in (" ++ value ++ ") do "]
    overflow := b.overflow || overflow })

def slotText (n : Int) : String := "%~" ++ Number.intText n

def isVariable : Index → Bool
  | .read (.slot _) => false
  | .read _ => true
  | _ => false

mutual

/-- The name an assignment writes to. Its indices are expanded before the assignment runs. -/
def writtenName : Place → Draft String
  | .absent => pure ""
  | .name n => pure n
  | .item base index => do
    let base ← writtenName base
    let index ← indexText index
    pure (base ++ "[" ++ index ++ "]")
  | .slot n => pure (slotText n)

def readName : Place → Draft String
  | .absent => pure ""
  | .name n => pure n
  | .item base index => do
    let text ← indexText index
    let text ← if isVariable index then bindIndex text else pure text
    let base ← readName base
    pure (base ++ "[" ++ text ++ "]")
  | .slot n => pure (slotText n)

def indexText : Index → Draft String
  | .absent => pure ""
  | .int v => pure (Number.intText v.toInt)
  | .read (.slot n) => pure (slotText n)
  | .read p => do
    let name ← readName p
    pure ("!" ++ name ++ "!")

end

def readText : Place → Draft String
  | .slot n => pure (slotText n)
  | p => do
    let name ← readName p
    pure ("!" ++ name ++ "!")

def opText : Op → String
  | .rem => "%%"
  | .not => String.singleton quotedBang
  | .xor => String.singleton quotedCaret
  | op => op.symbol

def arithText : Arith → Draft String
  | .absent => pure ""
  | .int v => pure (Number.intText v.toInt)
  | .read p => readText p
  | .unary op e => do
    let e ← arithText e
    pure (opText op ++ e)
  | .binary op l r => do
    let l ← arithText l
    let r ← arithText r
    pure ("(" ++ l ++ " " ++ opText op ++ " " ++ r ++ ")")

def fragmentText (literal : String → String) : Fragment → Draft String
  | .absent => pure ""
  | .text s => pure (literal s)
  | .read p => readText p

def fragmentsText (literal : String → String) : List Fragment → Draft String
  | [] => pure ""
  | f :: rest => do
    let f ← fragmentText literal f
    let rest ← fragmentsText literal rest
    pure (f ++ rest)

def quoted (fs : List Fragment) : Draft String := fragmentsText quotedText fs

def unquoted (fs : List Fragment) : Draft String := fragmentsText unquotedText fs

end BatchCompiler.Script
