import BatchCompiler.Scope.Declarations

/-!
# Loops of a tree

The loops of a statement in the order in which they start, so that a loop comes before those inside
it. Each one is given by where it stands: the arms of branches and loops around it.
-/

namespace BatchCompiler

/-- What a branch or a loop runs: its body, or what it has for the other case. -/
inductive Arm where
  | body
  | otherwise
deriving DecidableEq, Repr

namespace Node

mutual

/-- The arms around each loop, from the inside out, for a statement that stands in `arms`. -/
def loops (arms : List Arm) : Node → List (List Arm)
  | .block _ stmts _ => loopsOf arms stmts
  | .branch _ _ thenBody elseBody =>
    thenBody.loops (.body :: arms) ++ elseBody.loops (.otherwise :: arms)
  | .loop _ _ body => arms :: body.loops (.body :: arms)
  | .func _ _ _ body => body.loops arms
  | _ => []

def loopsOf (arms : List Arm) : List Node → List (List Arm)
  | [] => []
  | n :: rest => n.loops arms ++ loopsOf arms rest

end

def topLoops (items : List Node) : List (List Arm) :=
  loopsOf [] (items.filter fun n => !n.isFunc)

structure FunctionOutline where
  name : String
  params : List Node
  loops : List (List Arm)

def functionOutline? : Node → Option FunctionOutline
  | .func _ name params body => some ⟨name, params, body.loops []⟩
  | _ => none

def functionOutlines (items : List Node) : List FunctionOutline :=
  items.filterMap functionOutline?

def regionLoops (items : List Node) : List (List (List Arm)) :=
  topLoops items :: (functionOutlines items).map FunctionOutline.loops

theorem loopsOf_append (arms : List Arm) (a b : List Node) :
    loopsOf arms (a ++ b) = loopsOf arms a ++ loopsOf arms b := by
  induction a with
  | nil => simp only [loopsOf, List.nil_append]
  | cons n rest ih => simp only [List.cons_append, loopsOf, ih, List.append_assoc]

theorem loopsOf_singleton (arms : List Arm) (n : Node) : loopsOf arms [n] = n.loops arms := by
  simp only [loopsOf, List.append_nil]

theorem loopsOf_eq_nil {arms : List Arm} {ns : List Node} (h : ∀ n ∈ ns, n.loops arms = []) :
    loopsOf arms ns = [] := by
  induction ns with
  | nil => simp only [loopsOf]
  | cons n rest ih =>
    obtain ⟨hn, hRest⟩ := List.forall_mem_cons.mp h
    rw [loopsOf, hn, ih hRest, List.append_nil]

theorem topLoops_append {a b : List Node} (ha : ∀ n ∈ a, n.isFunc = false) :
    topLoops (a ++ b) = loopsOf [] a ++ topLoops b := by
  have hStay : a.filter (fun n => !n.isFunc) = a :=
    List.filter_eq_self.mpr fun n hn => by rw [ha n hn]; rfl
  rw [topLoops, List.filter_append, hStay, loopsOf_append]
  rfl

theorem functionOutlines_append {a b : List Node} (ha : ∀ n ∈ a, n.isFunc = false) :
    functionOutlines (a ++ b) = functionOutlines b := by
  have hNone : a.filterMap functionOutline? = [] := by
    refine List.filterMap_eq_nil_iff.mpr fun n hn => ?_
    have hFunc := ha n hn
    cases n with
    | func => cases hFunc
    | _ => rfl
  rw [functionOutlines, List.filterMap_append, hNone]
  rfl

theorem functionOutlines_filter (items : List Node) :
    functionOutlines (items.filter isFunc) = functionOutlines items := by
  induction items with
  | nil => rfl
  | cons n rest ih =>
    cases n with
    | func span name params body => exact congrArg (⟨name, params, body.loops []⟩ :: ·) ih
    | _ => exact ih

end Node

end BatchCompiler
