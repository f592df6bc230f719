import BatchCompiler.Scope.Declarations

/-!
# Positions of expressions

Each expression of a statement stands in a position that decides which forms it may have. A program
can be accepted if every expression fits its position and only functions return values.
-/

namespace BatchCompiler

inductive Position where
  | place
  | index
  | arithmetic
  | text
  | condition
  | value
deriving DecidableEq, Repr

/-- Comparisons compare texts. -/
def TokenKind.operandPosition (op : TokenKind) : Position :=
  if op.isRelational then .text else .arithmetic

namespace Node

/-- The forms that a position admits. Inside a function an index is not computed. -/
def isAdmitted (inFunction : Bool) : Position → Node → Bool
  | _, .ident .. | _, .subscript .. => true
  | .place, _ => false
  | _, .number .. => true
  | .index, .bool .. | .index, .unary .. | .index, .binary .. | .index, .strCompare .. => !inFunction
  | .index, _ => false
  | _, .bool .. | _, .unary .. | _, .binary .. | _, .strCompare .. => true
  | .text, .string .. | .text, .concat .. => true
  | .value, .string .. | .value, .concat .. | .value, .list .. => true
  | _, _ => false

def operands : Node → List (Position × Node)
  | .subscript _ array index => [(.place, array), (.index, index)]
  | .unary _ _ e => [(.arithmetic, e)]
  | .binary _ op l r => [(op.operandPosition, l), (op.operandPosition, r)]
  | .concat _ l r | .strCompare _ _ l r => [(.text, l), (.text, r)]
  | .list _ elems => elems.map fun e => (.value, e)
  | _ => []

/-- The position admits the expression, and so it is with the operands in their positions. -/
inductive Fits (inFunction : Bool) : Position → Node → Prop where
  | intro {position : Position} {n : Node} (hForm : n.isAdmitted inFunction position = true)
    (hOperands : ∀ x ∈ n.operands, Fits inFunction x.1 x.2) : Fits inFunction position n

theorem fits_iff {inFunction : Bool} {position : Position} {n : Node} :
    Fits inFunction position n ↔ n.isAdmitted inFunction position = true ∧
      ∀ x ∈ n.operands, Fits inFunction x.1 x.2 := by
  constructor
  · rintro ⟨hForm, hOperands⟩
    exact ⟨hForm, hOperands⟩
  · rintro ⟨hForm, hOperands⟩
    exact ⟨hForm, hOperands⟩

mutual

def expressions : Node → List (Position × Node)
  | .call _ _ args => args.map fun a => (.text, a)
  | .block _ stmts _ => expressionsOf stmts
  | .assign _ lhs rhs => [(.place, lhs), (.value, rhs)]
  | .branch _ cond thenBody elseBody =>
    (.condition, cond) :: (thenBody.expressions ++ elseBody.expressions)
  | .loop _ cond body => (.condition, cond) :: body.expressions
  | .ret _ e => if e.isAbsent then [] else [(.value, e)]
  | .func _ _ _ body => body.expressions
  | _ => []

def expressionsOf : List Node → List (Position × Node)
  | [] => []
  | n :: rest => n.expressions ++ expressionsOf rest

end

mutual

def returnsValue : Node → Bool
  | .block _ stmts _ => returnsValueIn stmts
  | .branch _ _ thenBody elseBody => thenBody.returnsValue || elseBody.returnsValue
  | .loop _ _ body => body.returnsValue
  | .ret _ e => !e.isAbsent
  | _ => false

def returnsValueIn : List Node → Bool
  | [] => false
  | n :: rest => n.returnsValue || returnsValueIn rest

end

/-- Only functions return values, and every expression fits its position. -/
structure IsAccepted (root : Node) : Prop where
  returns : ∀ n ∈ ScopeTable.itemsOf root, n.isFunc = false → n.returnsValue = false
  fits : ∀ n ∈ ScopeTable.itemsOf root, ∀ x ∈ n.expressions, Fits n.isFunc x.1 x.2

theorem mem_expressionsOf {x : Position × Node} {ns : List Node} :
    x ∈ expressionsOf ns ↔ ∃ n ∈ ns, x ∈ n.expressions := by
  induction ns with
  | nil => simp [expressionsOf]
  | cons n rest ih => simp [expressionsOf, ih]

theorem returnsValueIn_eq_false_iff {ns : List Node} :
    returnsValueIn ns = false ↔ ∀ n ∈ ns, n.returnsValue = false := by
  induction ns with
  | nil => simp [returnsValueIn]
  | cons n rest ih => simp [returnsValueIn, ih]

end Node

end BatchCompiler
