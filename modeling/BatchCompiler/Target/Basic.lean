/-!
# The target language

Statements a script is made of: assignments of text and numbers, calls, labels, jumps and
conditionals. There are only global variables and list elements, and the positional arguments of the
current call. Missing parts are `absent`.
-/

namespace BatchCompiler.Target

inductive Op where
  | neg
  | not
  | compl
  | add
  | sub
  | mul
  | div
  | rem
  | and
  | or
  | xor
  | shl
  | shr
  | unknown
deriving DecidableEq, Repr, Inhabited

namespace Op

def all : List Op := [neg, not, compl, add, sub, mul, div, rem, and, or, xor, shl, shr]

def ofNumber (n : Int) : Op :=
  if n < 0 then unknown else all.getD n.toNat unknown

def symbol : Op → String
  | neg => "-"
  | not => "!"
  | compl => "~"
  | add => "+"
  | sub => "-"
  | mul => "*"
  | div => "/"
  | rem => "%"
  | and => "&"
  | or => "|"
  | xor => "^"
  | shl => "<<"
  | shr => ">>"
  | unknown => "?"

def isUnary : Op → Bool
  | neg | not | compl => true
  | _ => false

end Op

inductive CmpOp where
  | eq
  | ne
  | lt
  | le
  | gt
  | ge
  | unknown
deriving DecidableEq, Repr, Inhabited

namespace CmpOp

def all : List CmpOp := [eq, ne, lt, le, gt, ge]

def ofNumber (n : Int) : CmpOp :=
  if n < 0 then unknown else all.getD n.toNat unknown

def symbol : CmpOp → String
  | eq => "=="
  | ne => "!="
  | lt => "<"
  | le => "<="
  | gt => ">"
  | ge => ">="
  | unknown => "?"

end CmpOp

mutual

/-- Something that can be assigned: a variable, a list element, or an argument of the call. -/
inductive Place where
  | absent
  | name (name : String)
  | item (base : Place) (index : Index)
  | slot (number : Int)

inductive Index where
  | absent
  | int (value : Int64)
  | read (place : Place)

end

deriving instance Repr, Inhabited for Place, Index

inductive Arith where
  | absent
  | int (value : Int64)
  | read (place : Place)
  | unary (op : Op) (expr : Arith)
  | binary (op : Op) (left right : Arith)
deriving Repr, Inhabited

inductive Fragment where
  | absent
  | text (value : String)
  | read (place : Place)
deriving Repr, Inhabited

structure Comparison where
  op : CmpOp
  left : List Fragment
  right : List Fragment
deriving Repr, Inhabited

inductive Stmt where
  | absent
  | raw (text : String)
  | comment (text : String)
  | label (name : String)
  | jump (target : String)
  | setText (dst : Place) (value : List Fragment)
  | setNumber (dst : Place) (expr : Arith)
  | call (callee : Fragment) (args : List (List Fragment))
  | whenTrue (cond : Comparison) (body : List Stmt)
  | choose (cond : Comparison) (thenBody elseBody : List Stmt)
deriving Repr, Inhabited

abbrev Program := List Stmt

def endOfFile : String := "eof"

def endsWithReturn (body : List Stmt) : Bool :=
  match body.getLast? with
  | some (.jump target) => target == endOfFile
  | _ => false

end BatchCompiler.Target
