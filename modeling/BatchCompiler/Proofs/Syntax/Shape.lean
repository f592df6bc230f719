import BatchCompiler.Syntax.Parser.Statement

/-!
# The shape of parsed trees

Which trees parsing can produce. Names are not reserved, what is called is a name, what is indexed
or assigned is a place; string operations are told from arithmetic by their operands, and a sign in
front of a number is part of it. Only the absent else branch and the absent returned value are
missing, and functions stand at the top. A tree may also keep its calls out of its expressions.
-/

namespace BatchCompiler.Node

open Syntax

variable {n : Node} {ns : List Node}

def isFreeName : Node → Bool
  | .ident _ name => !Text.startsWith Parser.reservedLead name
  | _ => false

def isOverloaded : TokenKind → Bool
  | .plus | .eq | .ne => true
  | _ => false

def isNumber : Node → Bool
  | .number .. => true
  | _ => false

mutual

def isExpression : Node → Bool
  | .bool .. | .number .. | .float .. | .string .. => true
  | n@(.ident ..) => n.isFreeName
  | .list _ elems => areExpressions elems
  | .subscript _ array index => array.isPlace && array.isExpression && index.isExpression
  | .unary _ op e => Parser.isPrefixOp op && !(op == .minus && e.isNumber) && e.isExpression
  | .binary _ op l r =>
    (Parser.precedence? op).isSome && !(isOverloaded op && (l.isStringy || r.isStringy)) &&
      l.isExpression && r.isExpression
  | .concat _ l r => (l.isStringy || r.isStringy) && l.isExpression && r.isExpression
  | .strCompare _ op l r =>
    (op == .eq || op == .ne) && (l.isStringy || r.isStringy) && l.isExpression && r.isExpression
  | .call _ callee args => callee.isFreeName && areExpressions args
  | _ => false

def areExpressions : List Node → Bool
  | [] => true
  | n :: rest => n.isExpression && areExpressions rest

end

mutual

def isStatement : Node → Bool
  | .comment .. | .empty .. => true
  | n@(.call ..) => n.isExpression
  | .block _ stmts synthetic => !synthetic && areStatements stmts
  | .assign _ lhs rhs => lhs.isPlace && lhs.isExpression && rhs.isExpression
  | .branch _ cond thenBody elseBody =>
    cond.isExpression && thenBody.isStatement && (elseBody.isAbsent || elseBody.isStatement)
  | .loop _ cond body => cond.isExpression && body.isStatement
  | .ret _ e => e.isAbsent || e.isExpression
  | .globals _ names => names.all isFreeName
  | _ => false

def areStatements : List Node → Bool
  | [] => true
  | n :: rest => n.isStatement && areStatements rest

end

def isItem : Node → Bool
  | .func _ name params body =>
    !Text.startsWith Parser.reservedLead name && params.all isFreeName && body.isStatement
  | n => n.isStatement

def isProgram : Node → Bool
  | .block _ items synthetic => synthetic && items.all isItem
  | _ => false

mutual

def isCallFree : Node → Bool
  | .call .. => false
  | .list _ elems => areCallFree elems
  | .subscript _ array index => array.isCallFree && index.isCallFree
  | .unary _ _ e => e.isCallFree
  | .binary _ _ l r | .concat _ l r | .strCompare _ _ l r => l.isCallFree && r.isCallFree
  | _ => true

def areCallFree : List Node → Bool
  | [] => true
  | n :: rest => n.isCallFree && areCallFree rest

end

mutual

def callsAreStatements : Node → Bool
  | .call _ _ args => areCallFree args
  | .block _ stmts _ => callsAreStatementsIn stmts
  | .assign _ lhs rhs => lhs.isCallFree && rhs.isCallFree
  | .branch _ cond thenBody elseBody =>
    cond.isCallFree && thenBody.callsAreStatements && elseBody.callsAreStatements
  | .loop _ cond body => cond.isCallFree && body.callsAreStatements
  | .ret _ e => e.isCallFree
  | .func _ _ _ body => body.callsAreStatements
  | _ => true

def callsAreStatementsIn : List Node → Bool
  | [] => true
  | n :: rest => n.callsAreStatements && callsAreStatementsIn rest

end

theorem exists_eq_ident (h : n.isFreeName = true) : ∃ span name, n = .ident span name := by
  cases n with
  | ident span name => exact ⟨span, name, rfl⟩
  | _ => cases h

theorem isExpression_of_isFreeName (h : n.isFreeName = true) : n.isExpression = true := by
  obtain ⟨span, name, rfl⟩ := exists_eq_ident h
  exact h

theorem areExpressions_iff : areExpressions ns = true ↔ ∀ n ∈ ns, n.isExpression = true := by
  induction ns with
  | nil => simp [areExpressions]
  | cons n rest ih => simp [areExpressions, ih]

theorem areStatements_iff : areStatements ns = true ↔ ∀ n ∈ ns, n.isStatement = true := by
  induction ns with
  | nil => simp [areStatements]
  | cons n rest ih => simp [areStatements, ih]

theorem areCallFree_iff : areCallFree ns = true ↔ ∀ n ∈ ns, n.isCallFree = true := by
  induction ns with
  | nil => simp [areCallFree]
  | cons n rest ih => simp [areCallFree, ih]

theorem callsAreStatementsIn_iff :
    callsAreStatementsIn ns = true ↔ ∀ n ∈ ns, n.callsAreStatements = true := by
  induction ns with
  | nil => simp [callsAreStatementsIn]
  | cons n rest ih => simp [callsAreStatementsIn, ih]

end BatchCompiler.Node
