import BatchCompiler.Proofs.Meaning.Tree
import BatchCompiler.Proofs.Syntax.Induction

/-!
# Trees in a frame

Where a tree is run in the frame of a call, every variable `x` is `x[frame]`. Indices keep naming what
they named before.
-/

namespace BatchCompiler.Meaning

mutual

def framed (frame : Option String) : Node → Node
  | .ident span name =>
    match frame with
    | none => .ident span name
    | some f => .subscript span (.ident span name) (.string span f)
  | .subscript span array index => .subscript span (framed frame array) index
  | .list span elems => .list span (framedAll frame elems)
  | .unary span op e => .unary span op (framed frame e)
  | .binary span op l r => .binary span op (framed frame l) (framed frame r)
  | .concat span l r => .concat span (framed frame l) (framed frame r)
  | .strCompare span op l r => .strCompare span op (framed frame l) (framed frame r)
  | .call span callee args => .call span callee (framedAll frame args)
  | .block span stmts synthetic => .block span (framedAll frame stmts) synthetic
  | .assign span lhs rhs => .assign span (framed frame lhs) (framed frame rhs)
  | .branch span cond thenBody elseBody =>
    .branch span (framed frame cond) (framed frame thenBody) (framed frame elseBody)
  | .loop span cond body => .loop span (framed frame cond) (framed frame body)
  | .ret span e => .ret span (framed frame e)
  | n => n

def framedAll (frame : Option String) : List Node → List Node
  | [] => []
  | n :: rest => framed frame n :: framedAll frame rest

end

variable {frame : Option String}

theorem framedAll_eq (ns : List Node) : framedAll frame ns = ns.map (framed frame) := by
  induction ns with
  | nil => rfl
  | cons n rest ih => rw [framedAll, ih, List.map_cons]

theorem framedAll_append (a b : List Node) :
    framedAll frame (a ++ b) = framedAll frame a ++ framedAll frame b := by
  simp only [framedAll_eq, List.map_append]

theorem framedAll_none_of {ns : List Node} (h : ∀ n ∈ ns, framed none n = n) :
    framedAll none ns = ns := by
  rw [framedAll_eq, List.map_congr_left h]
  exact List.map_id ns

theorem framed_none (n : Node) : framed none n = n := by
  induction n using Node.induction with
  | list span elems ih | block span elems synthetic ih => rw [framed, framedAll_none_of ih]
  | call span callee args _ ih => rw [framed, framedAll_none_of ih]
  | _ => simp only [framed, *]

theorem framedAll_none (ns : List Node) : framedAll none ns = ns :=
  framedAll_none_of fun n _ => framed_none n

end BatchCompiler.Meaning
