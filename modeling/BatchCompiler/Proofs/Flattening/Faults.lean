import BatchCompiler.Proofs.Lowering.Faults
import BatchCompiler.Proofs.Syntax.Positions
import BatchCompiler.Proofs.Syntax.Shape

/-!
# The faults that flattening leaves

What lowering objects to in a flat tree can be read off the source: an expression that its position
does not admit is a fault, and the faults of whatever moves into a temporary come before those of the
statement.
-/

namespace BatchCompiler

open Lowering

namespace Syntax.Flattening

variable {inFunction : Bool} {position : Position} {n : Node}

/-- The faults of an expression: of what moves in front of its statement, and of what stays. -/
structure Found where
  before : List Objection := []
  here : List Objection := []

instance : Append Found :=
  ⟨fun a b => ⟨a.before ++ b.before, a.here ++ b.here⟩⟩

def Found.moved (x : Found) : Found :=
  { before := x.before ++ x.here }

def Found.all (x : Found) : List Objection :=
  x.before ++ x.here

def isMoved : Position → Node → Bool
  | .index, .bool .. | .index, .unary .. | .index, .binary .. | .index, .strCompare .. => true
  | .text, .unary .. | .text, .binary .. | .text, .strCompare .. => true
  | .condition, .unary .. => true
  | .condition, .binary _ op _ _ => !op.isRelational
  | .arithmetic, .binary _ op _ _ | .value, .binary _ op _ _ => op.isRelational
  | .arithmetic, .strCompare .. | .value, .strCompare .. => true
  | _, _ => false

def isCaptured : Position → Node → Bool
  | .text, .call .. | .value, .call .. => true
  | _, _ => false

def misfit : Position → Node → Problem
  | .place, n => .notAPlace n.shape
  | .index, n => .badIndex n.shape
  | .arithmetic, n => .notANumber n.shape
  | .condition, n => .notACondition n.shape
  | .text, .float .. => .floatAsText
  | .text, n => .notAText n.shape
  | .value, n@(.float ..) => .notANumber n.shape
  | .value, n => .notAValue n.shape

def treated (inFunction : Bool) (position : Position) (n : Node) (operands : Found) : Found :=
  if n.isAdmitted inFunction position then
    if isMoved position n then operands.moved else operands
  else if isCaptured position n then { before := operands.before, here := [.problem .capturedCall] }
  else { here := [.problem (misfit position n)] }

mutual

def found (inFunction : Bool) (position : Position) : Node → Found
  | n@(.subscript _ array index) =>
    treated inFunction position n (found inFunction .place array ++ found inFunction .index index)
  | n@(.unary _ _ e) => treated inFunction position n (found inFunction .arithmetic e)
  | n@(.binary _ op l r) =>
    treated inFunction position n
      (found inFunction op.operandPosition l ++ found inFunction op.operandPosition r)
  | n@(.concat _ l r) | n@(.strCompare _ _ l r) =>
    treated inFunction position n (found inFunction .text l ++ found inFunction .text r)
  | n@(.list _ elems) => treated inFunction position n (foundAll inFunction .value elems)
  | n@(.call _ _ args) => treated inFunction position n (foundAll inFunction .text args)
  | n => treated inFunction position n {}

def foundAll (inFunction : Bool) (position : Position) : List Node → Found
  | [] => {}
  | n :: rest => found inFunction position n ++ foundAll inFunction position rest

end

mutual

def statementFound (inFunction : Bool) : Node → List Objection
  | .block _ stmts _ => statementsFound inFunction stmts
  | .assign _ lhs rhs =>
    let place := found inFunction .place lhs
    if rhs.isComparison then
      -- Either outcome is assigned by a statement of its own.
      (place ++ found inFunction .condition rhs).before ++
        ((found inFunction .condition rhs).here ++ place.here ++ place.here)
    else (place ++ found inFunction .value rhs).all
  | .call _ _ args => (foundAll inFunction .text args).all
  | .branch _ cond thenBody elseBody =>
    (found inFunction .condition cond).all ++ statementFound inFunction thenBody ++
      statementFound inFunction elseBody
  | .loop _ cond body =>
    (found inFunction .condition cond).all ++ statementFound inFunction body ++
      (found inFunction .condition cond).before
  | .ret _ e =>
    if e.isAbsent then []
    else if inFunction then (found inFunction .value e).all
    else (found inFunction .value e).before ++ [.problem .valueOutsideFunction]
  | _ => []

def statementsFound (inFunction : Bool) : List Node → List Objection
  | [] => []
  | n :: rest => statementFound inFunction n ++ statementsFound inFunction rest

end

def bodyFound : Node → List Objection
  | .func _ _ _ body => statementFound true body
  | _ => []

def sourceFaults (root : Node) : List Objection :=
  statementsFound false ((ScopeTable.itemsOf root).filter fun n => !n.isFunc) ++
    ((ScopeTable.itemsOf root).filter Node.isFunc).flatMap bodyFound

/-- A fault of a program as written: its error is not internal, except for the given forms where a text
stands. -/
def isOrdinary (texts : List Shape) : Objection → Bool
  | .problem (.notAText shape) => texts.contains shape
  | .problem p => p.kind != .internal
  | .crash _ => false

def isPlaced : Position → Node → Bool
  | .place, n => n.isPlace
  | _, _ => true

theorem ordinary_append {texts : List Shape} {a b : Found} (ha : ∀ x ∈ a.all, isOrdinary texts x = true)
    (hb : ∀ x ∈ b.all, isOrdinary texts x = true) : ∀ x ∈ (a ++ b).all, isOrdinary texts x = true := by
  intro x hx
  have hCases : x ∈ (a.before ++ b.before) ++ (a.here ++ b.here) := hx
  simp only [List.mem_append] at hCases
  rcases hCases with (h | h) | h | h
  · exact ha x (List.mem_append_left _ h)
  · exact hb x (List.mem_append_left _ h)
  · exact ha x (List.mem_append_right _ h)
  · exact hb x (List.mem_append_right _ h)

theorem ordinary_misfit (hn : n.isExpression = true) (hPlace : isPlaced position n = true)
    (hAdmitted : ¬ n.isAdmitted inFunction position = true)
    (hCaptured : ¬ isCaptured position n = true) :
    isOrdinary [.list] (.problem (misfit position n)) = true := by
  cases position with
  | place =>
    cases n with
    | ident | subscript => exact absurd rfl hAdmitted
    | _ => cases hPlace
  | index | arithmetic | condition => rfl
  | text =>
    cases n with
    | list | float => rfl
    | call => exact absurd rfl hCaptured
    | bool | number | string | ident | subscript | unary | binary | concat | strCompare =>
      exact absurd rfl hAdmitted
    | _ => cases hn
  | value =>
    cases n with
    | float => rfl
    | call => exact absurd rfl hCaptured
    | bool | number | string | ident | subscript | unary | binary | concat | strCompare | list =>
      exact absurd rfl hAdmitted
    | _ => cases hn

theorem ordinary_treated {x : Found} (hn : n.isExpression = true)
    (hPlace : isPlaced position n = true) (hx : ∀ y ∈ x.all, isOrdinary [.list] y = true) :
    ∀ y ∈ (treated inFunction position n x).all, isOrdinary [.list] y = true := by
  unfold treated
  split
  · split
    · intro y hy
      have hy' : y ∈ x.all ++ [] := hy
      rw [List.append_nil] at hy'
      exact hx y hy'
    · exact hx
  · next hAdmitted =>
    split
    · intro y hy
      rcases List.mem_append.mp hy with hy | hy
      · exact hx y (List.mem_append_left _ hy)
      · rw [List.mem_singleton.mp hy]
        rfl
    · next hCaptured =>
      intro y hy
      rw [List.mem_singleton.mp hy]
      exact ordinary_misfit hn hPlace hAdmitted hCaptured

end Syntax.Flattening

end BatchCompiler
