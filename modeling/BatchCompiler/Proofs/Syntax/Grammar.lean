import BatchCompiler.Syntax.Parser.Statement

/-!
# The grammar

Which token lists are expressions, statements and programs, and the tree of each. Comments and
directives stand outside of the grammar. Parentheses leave no trace in the tree, so a form that a
position asks for may stand in parentheses there.
-/

namespace BatchCompiler

namespace Syntax

def isSignificant (t : Token) : Bool :=
  t.kind != .comment && t.kind != .directive

def operatorRows : List (List TokenKind) :=
  [[.bar], [.caret], [.amp], [.eq, .ne], [.lt, .gt, .le, .ge], [.shl, .shr], [.plus, .minus],
    [.star, .slash, .percent]]

def row? (op : TokenKind) : Option Nat :=
  operatorRows.findIdx? (op ∈ ·)

def prefixOperators : List TokenKind := [.minus, .tilde, .bang, .plus]

/-- How tightly an expression has to hold together. The operators of a binary one that stand outside
of parentheses are in the row `least` or a later one. -/
inductive Level where
  | primary
  | postfixed
  | unary
  | binary (least : Nat)

inductive Listed : List (List Token × Node) → List Token → Prop where
  | nil : Listed [] []
  | one (x : List Token × Node) : Listed [x] x.1
  | more {x : List Token × Node} {rest : List (List Token × Node)} {comma : Token} {ts : List Token}
    (hComma : comma.kind = .comma) (hRest : Listed rest ts) (hSome : rest ≠ []) :
    Listed (x :: rest) (x.1 ++ comma :: ts)

structure IsFree (t : Token) : Prop where
  kind : t.kind = .ident
  free : Text.startsWith Parser.reservedLead t.value = false

inductive Expression : Level → List Token → Node → Prop where
  | number {t : Token} (hKind : t.kind = .number) :
    Expression .primary [t] (.number t.span (Number.readClamped t.value))
  | float {t : Token} {v : Number.Binary64} (hKind : t.kind = .float)
    (hValue : Number.Binary64.read t.value = .ok v) : Expression .primary [t] (.float t.span v)
  | string {t : Token} (hKind : t.kind = .string) :
    Expression .primary [t] (.string t.span t.value)
  | yes {t : Token} (hKind : t.kind = .kwTrue) : Expression .primary [t] (.bool t.span true)
  | no {t : Token} (hKind : t.kind = .kwFalse) : Expression .primary [t] (.bool t.span false)
  | name {t : Token} (ht : IsFree t) : Expression .primary [t] (.ident t.span t.value)
  | list {first last : Token} {parts : List (List Token × Node)} {ts : List Token}
    (hFirst : first.kind = .lbracket) (hParts : ∀ x ∈ parts, Expression (.binary 0) x.1 x.2)
    (hListed : Listed parts ts) (hLast : last.kind = .rbracket) :
    Expression .primary (first :: ts ++ [last]) (.list first.span (parts.map Prod.snd))
  | enclosed {first last : Token} {ts : List Token} {n : Node} (hFirst : first.kind = .lparen)
    (h : Expression (.binary 0) ts n) (hLast : last.kind = .rparen) :
    Expression .primary (first :: ts ++ [last]) n
  | ofPrimary {ts : List Token} {n : Node} (h : Expression .primary ts n) :
    Expression .postfixed ts n
  | call {first last : Token} {us ts : List Token} {callee : Node}
    {parts : List (List Token × Node)}
    (hCallee : Expression .postfixed us callee) (hName : callee.isIdent = true)
    (hFirst : first.kind = .lparen) (hParts : ∀ x ∈ parts, Expression (.binary 0) x.1 x.2)
    (hListed : Listed parts ts) (hLast : last.kind = .rparen) :
    Expression .postfixed (us ++ first :: ts ++ [last])
      (.call first.span callee (parts.map Prod.snd))
  | subscript {first last : Token} {us ts : List Token} {array index : Node}
    (hArray : Expression .postfixed us array) (hPlace : array.isPlace = true)
    (hFirst : first.kind = .lbracket) (hIndex : Expression (.binary 0) ts index)
    (hLast : last.kind = .rbracket) :
    Expression .postfixed (us ++ first :: ts ++ [last]) (.subscript first.span array index)
  | ofPostfixed {ts : List Token} {n : Node} (h : Expression .postfixed ts n) :
    Expression .unary ts n
  | prefixed {op : Token} {ts : List Token} {n : Node} (hOp : op.kind ∈ prefixOperators)
    (h : Expression .unary ts n) :
    Expression .unary (op :: ts) (Parser.applyPrefixOp op.span op.kind n)
  | ofUnary {least : Nat} {ts : List Token} {n : Node} (h : Expression .unary ts n) :
    Expression (.binary least) ts n
  | binary {least row : Nat} {op : Token} {us ts : List Token} {l r : Node} (hLeast : least ≤ row)
    (hOp : row? op.kind = some row) (hLeft : Expression (.binary row) us l)
    (hRight : Expression (.binary (row + 1)) ts r) :
    Expression (.binary least) (us ++ op :: ts) (Parser.combine op.span op.kind l r)

/-- A statement that an `else` behind it would belong to. -/
def dangles : Node → Bool
  | .branch _ _ _ other => other.isAbsent || dangles other
  | .loop _ _ body => dangles body
  | _ => false

def IsNamed (x : List Token × Node) : Prop :=
  ∃ t, IsFree t ∧ x = ([t], .ident t.span t.value)

inductive Statement : List Token → Node → Prop where
  | empty {t : Token} (h : t.kind = .semi) : Statement [t] (.empty t.span)
  | block {first last : Token} {parts : List (List Token × Node)} (hFirst : first.kind = .lbrace)
    (hParts : ∀ x ∈ parts, Statement x.1 x.2) (hLast : last.kind = .rbrace) :
    Statement (first :: parts.flatMap Prod.fst ++ [last])
      (.block first.span (parts.map Prod.snd) false)
  | branch {keyword first last : Token} {us ts : List Token} {cond body : Node}
    (hKeyword : keyword.kind = .kwIf) (hFirst : first.kind = .lparen)
    (hCond : Expression (.binary 0) us cond) (hLast : last.kind = .rparen)
    (hBody : Statement ts body) :
    Statement (keyword :: first :: us ++ last :: ts) (.branch keyword.span cond body .absent)
  | branchElse {keyword first last other : Token} {us ts vs : List Token}
    {cond body elseBody : Node}
    (hKeyword : keyword.kind = .kwIf) (hFirst : first.kind = .lparen)
    (hCond : Expression (.binary 0) us cond) (hLast : last.kind = .rparen)
    (hBody : Statement ts body) (hNearest : dangles body = false) (hOther : other.kind = .kwElse)
    (hElse : Statement vs elseBody) :
    Statement (keyword :: first :: us ++ last :: ts ++ other :: vs)
      (.branch keyword.span cond body elseBody)
  | loop {keyword first last : Token} {us ts : List Token} {cond body : Node}
    (hKeyword : keyword.kind = .kwWhile) (hFirst : first.kind = .lparen)
    (hCond : Expression (.binary 0) us cond) (hLast : last.kind = .rparen)
    (hBody : Statement ts body) :
    Statement (keyword :: first :: us ++ last :: ts) (.loop keyword.span cond body)
  | ret {keyword last : Token} (hKeyword : keyword.kind = .kwReturn) (hLast : last.kind = .semi) :
    Statement [keyword, last] (.ret keyword.span .absent)
  | retValue {keyword last : Token} {ts : List Token} {n : Node}
    (hKeyword : keyword.kind = .kwReturn)
    (h : Expression (.binary 0) ts n) (hLast : last.kind = .semi) :
    Statement (keyword :: ts ++ [last]) (.ret keyword.span n)
  | globals {keyword last : Token} {parts : List (List Token × Node)} {ts : List Token}
    (hKeyword : keyword.kind = .kwGlobal) (hParts : ∀ x ∈ parts, IsNamed x)
    (hListed : Listed parts ts) (hSome : parts ≠ []) (hLast : last.kind = .semi) :
    Statement (keyword :: ts ++ [last]) (.globals keyword.span (parts.map Prod.snd))
  | assign {op last : Token} {us ts : List Token} {lhs rhs : Node}
    (hLhs : Expression (.binary 0) us lhs) (hPlace : lhs.isPlace = true) (hOp : op.kind = .assign)
    (hRhs : Expression (.binary 0) ts rhs) (hLast : last.kind = .semi) :
    Statement (us ++ op :: ts ++ [last]) (.assign op.span lhs rhs)
  | call {last : Token} {ts : List Token} {n : Node} (h : Expression (.binary 0) ts n)
    (hCall : n.isCall = true) (hLast : last.kind = .semi) : Statement (ts ++ [last]) n

inductive Item : List Token → Node → Prop where
  | statement {ts : List Token} {n : Node} (h : Statement ts n) : Item ts n
  | function {keyword name first last : Token} {parts : List (List Token × Node)}
    {us ts : List Token} {span : Span} {stmts : List Node}
    (hKeyword : keyword.kind = .kwFunc) (hName : IsFree name) (hFirst : first.kind = .lparen)
    (hParts : ∀ x ∈ parts, IsNamed x) (hListed : Listed parts us)
    (hLast : last.kind = .rparen) (hBody : Statement ts (.block span stmts false)) :
    Item (keyword :: name :: first :: us ++ last :: ts)
      (.func name.span name.value (parts.map Prod.snd) (.block span stmts false))

inductive Program : List Token → Node → Prop where
  | intro {parts : List (List Token × Node)} {ts : List Token} {first last : Token}
    (hParts : ∀ x ∈ parts, Item x.1 x.2) (hLast : last.kind = .eof)
    (hTokens : parts.flatMap Prod.fst ++ [last] = first :: ts) :
    Program (first :: ts) (.block first.span (parts.map Prod.snd) true)

end Syntax

namespace Node

def isComment : Node → Bool
  | .comment .. => true
  | _ => false

mutual

def bare : Node → Node
  | .block span stmts synthetic => .block span (bareOf stmts) synthetic
  | .branch span cond thenBody elseBody => .branch span cond thenBody.bare elseBody.bare
  | .loop span cond body => .loop span cond body.bare
  | .func span name params body => .func span name params body.bare
  | n => n

def bareOf : List Node → List Node
  | [] => []
  | n :: rest => if n.isComment then bareOf rest else n.bare :: bareOf rest

end

end Node

end BatchCompiler
