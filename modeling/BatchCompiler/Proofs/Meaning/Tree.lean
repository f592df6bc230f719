import BatchCompiler.Number.Binary64.Shortest
import BatchCompiler.Proofs.Meaning.Store
import BatchCompiler.Syntax.Node

/-!
# The meaning of trees

Expressions are pure and have texts as values; list literals are values only where they are assigned
or returned. Statements change a world. Every loop is given the same bound on its rounds: running is
a computation, and a program ends when some bound is enough for it.
-/

namespace BatchCompiler.Meaning

mutual

def text (I : Interpretation) (σ : Store) : Node → String
  | .bool _ v => truthText v
  | .number _ v => Number.intText v.toInt
  | .float _ v => v.text
  | .string _ s => s
  | .ident _ name => σ { name := name }
  | .subscript _ array index => σ ((place I σ array).item (text I σ index))
  | .unary _ op e => I.unary op (text I σ e)
  | .binary _ op l r =>
    if op.isRelational then truthText (I.compare op (text I σ l) (text I σ r))
    else I.binary op (text I σ l) (text I σ r)
  | .concat _ l r => text I σ l ++ text I σ r
  | .strCompare _ op l r => truthText (I.compare op (text I σ l) (text I σ r))
  | _ => ""

def place (I : Interpretation) (σ : Store) : Node → Location
  | .ident _ name => { name := name }
  | .subscript _ array index => (place I σ array).item (text I σ index)
  | _ => default

end

/-- Arithmetic holds when it is not zero, other values as the interpretation says. -/
def holds (I : Interpretation) (σ : Store) : Node → Bool
  | .strCompare _ op l r => I.compare op (text I σ l) (text I σ r)
  | n@(.binary _ op l r) =>
    if op.isRelational then I.compare op (text I σ l) (text I σ r)
    else I.compare .ne (text I σ n) "0"
  | n@(.unary ..) => I.compare .ne (text I σ n) "0"
  | n => I.truth (text I σ n)

inductive Value where
  | text (s : String)
  | list (elems : List Value)
deriving Repr, Inhabited

mutual

def value (I : Interpretation) (σ : Store) : Node → Value
  | .list _ elems => .list (values I σ elems)
  | n => .text (text I σ n)

def values (I : Interpretation) (σ : Store) : List Node → List Value
  | [] => []
  | n :: rest => value I σ n :: values I σ rest

end

mutual

/-- Stores a value; the elements of a list go to the positions of the location. -/
def Store.put (σ : Store) (l : Location) : Value → Store
  | .text s => σ.set l s
  | .list elems => Store.putFrom σ l 0 elems

def Store.putFrom (σ : Store) (l : Location) (position : Nat) : List Value → Store
  | [] => σ
  | v :: rest =>
    Store.putFrom (Store.put σ (l.item (positionText position)) v) l (position + 1) rest

end

mutual

/-- Stores the elements of a list literal one after the other. Each is evaluated, and its location
found, when its turn comes. -/
def assignInTurn (I : Interpretation) (target : Store → Location) (σ : Store) : Node → Store
  | .list _ elems => assignFrom I target 0 σ elems
  | n => σ.set (target σ) (text I σ n)

def assignFrom (I : Interpretation) (target : Store → Location) (position : Nat) (σ : Store) :
    List Node → Store
  | [] => σ
  | n :: rest =>
    assignFrom I target (position + 1)
      (assignInTurn I (fun τ => (target τ).item (positionText position)) σ n) rest

end

def assign (I : Interpretation) (σ : Store) (lhs rhs : Node) : Store :=
  match I.lists with
  | .together => σ.put (place I σ lhs) (value I σ rhs)
  | .inTurn => assignInTurn I (fun τ => place I τ lhs) σ rhs

def calleeName : Node → String
  | .ident _ name => name
  | _ => ""

inductive Exit where
  | finished
  | returned (value : Option Value)
deriving Repr, Inhabited

abbrev Result := Option (Exit × World)

def Result.andThen (r : Result) (next : World → Result) : Result :=
  match r with
  | some (.finished, w) => next w
  | r => r

def iterate (test : World → Bool) (body : World → Result) : (tests : Nat) → World → Result
  | 0, _ => none
  | tests + 1, w =>
    if test w then (body w).andThen (iterate test body tests) else some (.finished, w)

mutual

def exec (I : Interpretation) (rounds : Nat) : Node → World → Result
  | .block _ stmts _, w => execAll I rounds stmts w
  | .assign _ lhs rhs, w => some (.finished, { w with store := assign I w.store lhs rhs })
  | .call _ callee args, w =>
    some (.finished, w.call I (I.event (calleeName callee) (args.map (text I w.store))))
  | .branch _ cond thenBody elseBody, w =>
    if holds I w.store cond then exec I rounds thenBody w else exec I rounds elseBody w
  | .loop _ cond body, w =>
    iterate (fun w => holds I w.store cond) (fun w => exec I rounds body w) rounds w
  | .ret _ e, w =>
    some (.returned (if e.isAbsent then none else some (value I w.store e)), w)
  | _, w => some (.finished, w)

def execAll (I : Interpretation) (rounds : Nat) : List Node → World → Result
  | [], w => some (.finished, w)
  | n :: rest, w => (exec I rounds n w).andThen fun w => execAll I rounds rest w

end

theorem execAll_append (I : Interpretation) (rounds : Nat) (first second : List Node) (w : World) :
    execAll I rounds (first ++ second) w =
      (execAll I rounds first w).andThen fun w => execAll I rounds second w := by
  induction first generalizing w with
  | nil => simp [execAll, Result.andThen]
  | cons n rest ih =>
    simp only [List.cons_append, execAll]
    rcases exec I rounds n w with _ | ⟨_ | _, w'⟩
    · rfl
    · exact ih w'
    · rfl

theorem execAll_singleton (I : Interpretation) (rounds : Nat) (n : Node) (w : World) :
    execAll I rounds [n] w = exec I rounds n w := by
  simp only [execAll]
  rcases exec I rounds n w with _ | ⟨_ | _, w'⟩ <;> rfl

def Ends (I : Interpretation) (stmts : List Node) (w : World) (r : Exit × World) : Prop :=
  ∃ rounds, execAll I rounds stmts w = some r

end BatchCompiler.Meaning
