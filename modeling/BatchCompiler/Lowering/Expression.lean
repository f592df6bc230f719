import BatchCompiler.Lowering.Error
import BatchCompiler.Number.Integer
import BatchCompiler.Target.Basic

/-!
# Lowering expressions

Where an expression stands decides what it becomes: an index, a number, a text made of fragments, or
a comparison. A form that does not fit its position is an error. `scope` names the region in errors.
-/

namespace BatchCompiler.Lowering

open Target

def arithOp? : TokenKind → Option Op
  | .plus => some .add
  | .minus => some .sub
  | .star => some .mul
  | .slash => some .div
  | .percent => some .rem
  | .amp => some .and
  | .bar => some .or
  | .caret => some .xor
  | .shl => some .shl
  | .shr => some .shr
  | _ => none

def unaryOp? : TokenKind → Option Op
  | .minus => some .neg
  | .bang => some .not
  | .tilde => some .compl
  | _ => none

def cmpOp? : TokenKind → Option CmpOp
  | .eq => some .eq
  | .ne => some .ne
  | .lt => some .lt
  | .le => some .le
  | .gt => some .gt
  | .ge => some .ge
  | _ => none

def reject {α : Type} (scope : String) (n : Node) (p : Problem) : Except Failure α :=
  .error (.rejected { problem := p, span := n.span, scope := scope })

def truthNumber (b : Bool) : Int64 := if b then 1 else 0

mutual

def lowerPlace (scope : String) : Node → Except Failure Place
  | .ident _ name => pure (.name name)
  | .subscript _ array index => do
    let base ← lowerPlace scope array
    let index ← lowerIndex scope index
    pure (.item base index)
  | .absent => throw (.crash .absentPart)
  | n => reject scope n (.notAPlace n.shape)

def lowerIndex (scope : String) : Node → Except Failure Index
  | .ident _ name => pure (.read (.name name))
  | .subscript _ array index => do
    let base ← lowerPlace scope array
    let index ← lowerIndex scope index
    pure (.read (.item base index))
  | .number _ v => pure (.int v)
  | .absent => throw (.crash .absentPart)
  | n => reject scope n (.badIndex n.shape)

end

def lowerArith (scope : String) : Node → Except Failure Arith
  | .bool _ v => pure (.int (truthNumber v))
  | .number _ v => pure (.int v)
  | n@(.ident ..) => do
    let p ← lowerPlace scope n
    pure (.read p)
  | n@(.subscript ..) => do
    let p ← lowerPlace scope n
    pure (.read p)
  | n@(.unary _ op e) => do
    let e ← lowerArith scope e
    if op = .plus then pure e
    else match unaryOp? op with
      | some op => pure (.unary op e)
      | none => reject scope n (.unknownUnary op)
  | n@(.binary _ op l r) => match arithOp? op with
    | none => reject scope n (.comparisonAsNumber op)
    | some op => do
      let l ← lowerArith scope l
      let r ← lowerArith scope r
      pure (.binary op l r)
  | .absent => throw (.crash .absentPart)
  | n => reject scope n (.notANumber n.shape)

def lowerText (scope : String) : Node → Except Failure (List Fragment)
  | .bool _ v => pure [.text (Number.intText (truthNumber v).toInt)]
  | .number _ v => pure [.text (Number.intText v.toInt)]
  | .string _ v => pure [.text v]
  | n@(.ident ..) => do
    let p ← lowerPlace scope n
    pure [.read p]
  | n@(.subscript ..) => do
    let p ← lowerPlace scope n
    pure [.read p]
  | .concat _ l r => do
    let l ← lowerText scope l
    let r ← lowerText scope r
    pure (l ++ r)
  | n@(.call ..) => reject scope n .capturedCall
  | n@(.float ..) => reject scope n .floatAsText
  | .absent => throw (.crash .absentPart)
  | n => reject scope n (.notAText n.shape)

def compareTexts (scope : String) (n : Node) (op : TokenKind) (l r : Node) :
    Except Failure Comparison :=
  match cmpOp? op with
  | none => reject scope n (.unknownComparison op)
  | some op => do
    let left ← lowerText scope l
    let right ← lowerText scope r
    pure { op := op, left := left, right := right }

/-- Compares with the text `1`, which is what a true value is. -/
def isOne (left : Fragment) : Comparison :=
  { op := .eq, left := [left], right := [.text "1"] }

def constantCondition (b : Bool) : Comparison :=
  isOne (.text (if b then "1" else "0"))

def lowerCondition (scope : String) : Node → Except Failure Comparison
  | n@(.strCompare _ op l r) => compareTexts scope n op l r
  | n@(.binary _ op l r) =>
    if op.isRelational then compareTexts scope n op l r
    else reject scope n (.notACondition n.shape)
  | n@(.ident ..) => do
    let p ← lowerPlace scope n
    pure (isOne (.read p))
  | n@(.subscript ..) => do
    let p ← lowerPlace scope n
    pure (isOne (.read p))
  | .bool _ v => pure (constantCondition v)
  | .number _ v => pure (constantCondition (v = 1))
  | .absent => throw (.crash .absentPart)
  | n => reject scope n (.notACondition n.shape)

end BatchCompiler.Lowering
