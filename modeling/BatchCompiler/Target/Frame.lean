import BatchCompiler.Crash
import BatchCompiler.Target.Basic

/-!
# Frames

The variables of a function live in elements that the frame number, the second argument of the call,
selects. Moving a body into its frame turns every variable `x` into `x[frame]`; the indices of list
elements keep naming what they named before.
-/

namespace BatchCompiler.Target

def returnSlot : Int := 1

def frameSlot : Int := 2

def firstArgumentSlot : Int := 3

def frameIndex : Index := .read (.slot frameSlot)

def Place.inFrame : Place → Except Crash Place
  | .absent => throw .framePlace
  | .name n => pure (.item (.name n) frameIndex)
  | .item base index => do
    let base ← base.inFrame
    pure (.item base index)
  | .slot n => pure (.slot n)

def Arith.inFrame : Arith → Except Crash Arith
  | .absent => throw .frameArithmetic
  | .int v => pure (.int v)
  | .read p => do
    let p ← p.inFrame
    pure (.read p)
  | .unary op e => do
    let e ← e.inFrame
    pure (.unary op e)
  | .binary op l r => do
    let l ← l.inFrame
    let r ← r.inFrame
    pure (.binary op l r)

def Fragment.inFrame : Fragment → Except Crash Fragment
  | .absent => throw .frameFragment
  | .text s => pure (.text s)
  | .read p => do
    let p ← p.inFrame
    pure (.read p)

def Comparison.inFrame (c : Comparison) : Except Crash Comparison := do
  let left ← c.left.mapM Fragment.inFrame
  let right ← c.right.mapM Fragment.inFrame
  pure { op := c.op, left := left, right := right }

mutual

def Stmt.inFrame : Stmt → Except Crash Stmt
  | .absent => throw .frameStatement
  | .raw t => pure (.raw t)
  | .comment t => pure (.comment t)
  | .label n => pure (.label n)
  | .jump t => pure (.jump t)
  | .setText dst value => do
    let dst ← dst.inFrame
    let value ← value.mapM Fragment.inFrame
    pure (.setText dst value)
  | .setNumber dst e => do
    let dst ← dst.inFrame
    let e ← e.inFrame
    pure (.setNumber dst e)
  | .call callee args => do
    let args ← args.mapM fun a => a.mapM Fragment.inFrame
    let callee ← callee.inFrame
    pure (.call callee args)
  | .whenTrue c body => do
    let c ← c.inFrame
    let body ← inFrame body
    pure (.whenTrue c body)
  | .choose c t e => do
    let c ← c.inFrame
    let t ← inFrame t
    let e ← inFrame e
    pure (.choose c t e)

def inFrame : List Stmt → Except Crash (List Stmt)
  | [] => pure []
  | s :: rest => do
    let s ← s.inFrame
    let rest ← inFrame rest
    pure (s :: rest)

end

/-- Copies the arguments of a call, from slot `slot` on, into the frame. -/
def parameterCopies (slot : Int) : List String → List Stmt
  | [] => []
  | p :: rest =>
    .setText (.item (.name p) frameIndex) [.read (.slot slot)] :: parameterCopies (slot + 1) rest

def endLabel (function : String) : String := function ++ "__end"

/-- A callable label with its parameters and body; falling into it from above skips it. -/
def assemble (name : String) (params : List String) (body : List Stmt) : List Stmt :=
  [.jump (endLabel name), .label name] ++ parameterCopies firstArgumentSlot params ++ body ++
    (if endsWithReturn body then [] else [.jump endOfFile]) ++ [.label (endLabel name)]

end BatchCompiler.Target
