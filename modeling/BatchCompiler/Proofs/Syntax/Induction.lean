import BatchCompiler.Syntax.Node

/-!
# Induction on trees

The parts of a list, a call, a block and a function come in lists; the hypothesis about them speaks
of the members of the list.
-/

namespace BatchCompiler.Node

@[elab_as_elim]
theorem induction {motive : Node → Prop}
    (absent : motive .absent)
    (bool : ∀ span v, motive (.bool span v))
    (number : ∀ span v, motive (.number span v))
    (float : ∀ span v, motive (.float span v))
    (string : ∀ span v, motive (.string span v))
    (list : ∀ span elems, (∀ e ∈ elems, motive e) → motive (.list span elems))
    (ident : ∀ span name, motive (.ident span name))
    (subscript : ∀ span array index, motive array → motive index →
      motive (.subscript span array index))
    (unary : ∀ span op e, motive e → motive (.unary span op e))
    (binary : ∀ span op l r, motive l → motive r → motive (.binary span op l r))
    (concat : ∀ span l r, motive l → motive r → motive (.concat span l r))
    (strCompare : ∀ span op l r, motive l → motive r → motive (.strCompare span op l r))
    (call : ∀ span callee args, motive callee → (∀ a ∈ args, motive a) →
      motive (.call span callee args))
    (comment : ∀ span text, motive (.comment span text))
    (block : ∀ span stmts synthetic, (∀ s ∈ stmts, motive s) →
      motive (.block span stmts synthetic))
    (assign : ∀ span lhs rhs, motive lhs → motive rhs → motive (.assign span lhs rhs))
    (branch : ∀ span cond thenBody elseBody, motive cond → motive thenBody → motive elseBody →
      motive (.branch span cond thenBody elseBody))
    (loop : ∀ span cond body, motive cond → motive body → motive (.loop span cond body))
    (ret : ∀ span e, motive e → motive (.ret span e))
    (globals : ∀ span names, (∀ x ∈ names, motive x) → motive (.globals span names))
    (empty : ∀ span, motive (.empty span))
    (func : ∀ span name params body, (∀ p ∈ params, motive p) → motive body →
      motive (.func span name params body))
    (n : Node) : motive n := by
  refine @Node.rec motive (fun l => ∀ x ∈ l, motive x) absent bool number float string list ident
    subscript unary binary concat strCompare call comment block assign branch loop ret globals
    empty func ?_ ?_ n
  · intro x hx
    cases hx
  · intro head tail hHead hTail x hx
    rcases List.mem_cons.mp hx with rfl | hx
    · exact hHead
    · exact hTail x hx

theorem inductionOnParts {motive : Node → Prop}
    (step : ∀ n, (∀ c ∈ n.children, motive c) → motive n) (n : Node) : motive n := by
  induction n using Node.induction with
  | list span elems ih | block span elems synthetic ih | globals span elems ih =>
    exact step _ ih
  | call span callee args ihCallee ihArgs =>
    exact step _ (List.forall_mem_cons.mpr ⟨ihCallee, ihArgs⟩)
  | func span name params body ihParams ihBody =>
    apply step
    simp only [children, List.forall_mem_append, List.forall_mem_singleton]
    exact ⟨ihParams, ihBody⟩
  | _ =>
    apply step
    simp [children, *]

theorem forall_walkAll_iff {P : Node → Prop} {ns : List Node} :
    (∀ x ∈ walkAll ns, P x) ↔ ∀ n ∈ ns, ∀ x ∈ n.walk, P x := by
  induction ns with
  | nil => simp [walkAll]
  | cons n rest ih => simp only [walkAll, List.forall_mem_append, ih, List.forall_mem_cons]

end BatchCompiler.Node
