import BatchCompiler.Number.Binary64.Basic
import BatchCompiler.Source.Token

/-!
# Program trees

One type for expressions, statements and function declarations. A missing part, such as the else
branch of a conditional that has none, is the node `absent`.
-/

namespace BatchCompiler

inductive Node where
  | absent
  | bool (span : Span) (value : Bool)
  | number (span : Span) (value : Int64)
  | float (span : Span) (value : Number.Binary64)
  | string (span : Span) (value : String)
  | list (span : Span) (elems : List Node)
  | ident (span : Span) (name : String)
  | subscript (span : Span) (array index : Node)
  | unary (span : Span) (op : TokenKind) (expr : Node)
  | binary (span : Span) (op : TokenKind) (left right : Node)
  | concat (span : Span) (left right : Node)
  | strCompare (span : Span) (op : TokenKind) (left right : Node)
  | call (span : Span) (callee : Node) (args : List Node)
  | comment (span : Span) (text : String)
  | block (span : Span) (stmts : List Node) (synthetic : Bool)
  | assign (span : Span) (lhs rhs : Node)
  | branch (span : Span) (cond thenBody elseBody : Node)
  | loop (span : Span) (cond body : Node)
  | ret (span : Span) (expr : Node)
  | globals (span : Span) (names : List Node)
  | empty (span : Span)
  | func (span : Span) (name : String) (params : List Node) (body : Node)
deriving Repr, Inhabited

inductive Shape where
  | bool
  | number
  | float
  | string
  | list
  | ident
  | subscript
  | unary
  | binary
  | concat
  | strCompare
  | call
  | comment
  | block
  | assign
  | branch
  | loop
  | ret
  | globals
  | empty
  | func
  | unknown
deriving DecidableEq, Repr, Inhabited

namespace Shape

def all : List Shape :=
  [bool, number, float, string, list, ident, subscript, unary, binary, concat, strCompare, call,
    comment, block, assign, branch, loop, ret, globals, empty, func]

def ofNumber (n : Int) : Shape :=
  if n < 0 then unknown else all.getD n.toNat unknown

def name : Shape → String
  | bool => "Bool"
  | number => "Number"
  | float => "FloatNumber"
  | string => "String"
  | list => "List"
  | ident => "Ident"
  | subscript => "Subscript"
  | unary => "UnaryOp"
  | binary => "BinaryOp"
  | concat => "Concat"
  | strCompare => "StrCompare"
  | call => "FuncCall"
  | comment => "Comment"
  | block => "Block"
  | assign => "Assign"
  | branch => "If"
  | loop => "While"
  | ret => "Return"
  | globals => "GlobalDecl"
  | empty => "Empty"
  | func => "FuncDecl"
  | unknown => "Unknown"

end Shape

namespace Node

def isAbsent : Node → Bool
  | absent => true
  | _ => false

def shape : Node → Shape
  | absent => .unknown
  | bool .. => .bool
  | number .. => .number
  | float .. => .float
  | string .. => .string
  | list .. => .list
  | ident .. => .ident
  | subscript .. => .subscript
  | unary .. => .unary
  | binary .. => .binary
  | concat .. => .concat
  | strCompare .. => .strCompare
  | call .. => .call
  | comment .. => .comment
  | block .. => .block
  | assign .. => .assign
  | branch .. => .branch
  | loop .. => .loop
  | ret .. => .ret
  | globals .. => .globals
  | empty .. => .empty
  | func .. => .func

def span : Node → Span
  | absent => {}
  | bool s _ | number s _ | float s _ | string s _ | list s _ | ident s _ | comment s _ => s
  | subscript s _ _ | unary s _ _ | concat s _ _ | call s _ _ | block s _ _ | assign s _ _ => s
  | binary s _ _ _ | strCompare s _ _ _ | branch s _ _ _ | func s _ _ _ => s
  | loop s _ _ => s
  | ret s _ | globals s _ | empty s => s

def children : Node → List Node
  | list _ elems => elems
  | subscript _ array index => [array, index]
  | unary _ _ e => [e]
  | binary _ _ l r | concat _ l r | strCompare _ _ l r => [l, r]
  | call _ callee args => callee :: args
  | block _ stmts _ => stmts
  | assign _ l r => [l, r]
  | branch _ c t e => [c, t, e]
  | loop _ c b => [c, b]
  | ret _ e => [e]
  | globals _ names => names
  | func _ _ params body => params ++ [body]
  | _ => []

/-- An identifier, or an element of a list that is named in this way. -/
def isPlace : Node → Bool
  | ident .. => true
  | subscript _ array _ => array.isPlace
  | _ => false

def isStringy : Node → Bool
  | string .. | concat .. => true
  | _ => false

def isIdent : Node → Bool
  | ident .. => true
  | _ => false

def isCall : Node → Bool
  | call .. => true
  | _ => false

def isFunc : Node → Bool
  | func .. => true
  | _ => false

/-- Comparisons are the operations that a condition is made of. -/
def isComparison : Node → Bool
  | strCompare .. => true
  | binary _ op _ _ => op.isRelational
  | _ => false

def isArithmetic : Node → Bool
  | unary .. | bool .. => true
  | binary _ op _ _ => !op.isRelational
  | _ => false

mutual

/-- A node and all nodes below it, in source order, without absent ones. -/
def walk : Node → List Node
  | absent => []
  | n@(list _ elems) => n :: walkAll elems
  | n@(subscript _ a i) => n :: (a.walk ++ i.walk)
  | n@(unary _ _ e) => n :: e.walk
  | n@(binary _ _ l r) => n :: (l.walk ++ r.walk)
  | n@(concat _ l r) => n :: (l.walk ++ r.walk)
  | n@(strCompare _ _ l r) => n :: (l.walk ++ r.walk)
  | n@(call _ c args) => n :: (c.walk ++ walkAll args)
  | n@(block _ stmts _) => n :: walkAll stmts
  | n@(assign _ l r) => n :: (l.walk ++ r.walk)
  | n@(branch _ c t e) => n :: (c.walk ++ t.walk ++ e.walk)
  | n@(loop _ c b) => n :: (c.walk ++ b.walk)
  | n@(ret _ e) => n :: e.walk
  | n@(globals _ names) => n :: walkAll names
  | n@(func _ _ params body) => n :: (walkAll params ++ body.walk)
  | n@(bool ..) | n@(number ..) | n@(float ..) | n@(string ..) | n@(ident ..) | n@(comment ..)
  | n@(empty ..) => [n]

def walkAll : List Node → List Node
  | [] => []
  | n :: rest => n.walk ++ walkAll rest

end

end Node

end BatchCompiler
