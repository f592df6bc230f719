import BatchCompiler.Scope.Declarations

/-!
# Leaves of a tree

The names and texts that a tree is spelled with. A name that is only declared global is no leaf.
-/

namespace BatchCompiler

inductive Leaf where
  | name (name : String)
  | callee (name : String)
  | text (s : String)
  | remark (s : String)
deriving DecidableEq, Repr

namespace Node

def calleeLeaves : Node → List Leaf
  | .ident _ name => [.callee name]
  | _ => []

mutual

def leaves : Node → List Leaf
  | .ident _ name => [.name name]
  | .string _ s => [.text s]
  | .comment _ s => [.remark s]
  | .list _ elems => leavesOf elems
  | .subscript _ array index => array.leaves ++ index.leaves
  | .unary _ _ e => e.leaves
  | .binary _ _ l r | .concat _ l r | .strCompare _ _ l r => l.leaves ++ r.leaves
  | .call _ callee args => callee.calleeLeaves ++ leavesOf args
  | .block _ stmts _ => leavesOf stmts
  | .assign _ lhs rhs => lhs.leaves ++ rhs.leaves
  | .branch _ cond thenBody elseBody => cond.leaves ++ thenBody.leaves ++ elseBody.leaves
  | .loop _ cond body => cond.leaves ++ body.leaves
  | .ret _ e => e.leaves
  | .func _ name params body => .callee name :: (leavesOf params ++ body.leaves)
  | _ => []

def leavesOf : List Node → List Leaf
  | [] => []
  | n :: rest => n.leaves ++ leavesOf rest

end

def region : Node → Region
  | .func _ name _ _ => .function name
  | _ => .top

def EveryLeaf (P : Leaf → Prop) (n : Node) : Prop :=
  ∀ x ∈ n.leaves, P x

instance (P : Leaf → Prop) [DecidablePred P] (n : Node) : Decidable (n.EveryLeaf P) :=
  inferInstanceAs (Decidable (∀ x ∈ n.leaves, P x))

theorem mem_leavesOf {x : Leaf} {ns : List Node} : x ∈ leavesOf ns ↔ ∃ n ∈ ns, x ∈ n.leaves := by
  induction ns with
  | nil => simp [leavesOf]
  | cons n rest ih => simp [leavesOf, ih]

theorem forall_leavesOf_iff {P : Leaf → Prop} {ns : List Node} :
    (∀ x ∈ leavesOf ns, P x) ↔ ∀ n ∈ ns, n.EveryLeaf P := by
  constructor
  · intro h n hn x hx
    exact h x (mem_leavesOf.mpr ⟨n, hn, hx⟩)
  · intro h x hx
    obtain ⟨n, hn, hx⟩ := mem_leavesOf.mp hx
    exact h n hn x hx

section

variable {P : Leaf → Prop} {span : Span}

variable {name s : String} {op : TokenKind} {e l r cond body : Node}

@[simp] theorem everyLeaf_ident_iff : (Node.ident span name).EveryLeaf P ↔ P (.name name) :=
  List.forall_mem_singleton

@[simp] theorem everyLeaf_string_iff : (Node.string span s).EveryLeaf P ↔ P (.text s) :=
  List.forall_mem_singleton

@[simp] theorem everyLeaf_comment_iff : (Node.comment span s).EveryLeaf P ↔ P (.remark s) :=
  List.forall_mem_singleton

@[simp] theorem everyLeaf_subscript_iff {array index : Node} :
    (Node.subscript span array index).EveryLeaf P ↔ array.EveryLeaf P ∧ index.EveryLeaf P :=
  List.forall_mem_append

@[simp] theorem everyLeaf_unary_iff : (Node.unary span op e).EveryLeaf P ↔ e.EveryLeaf P :=
  Iff.rfl

@[simp] theorem everyLeaf_binary_iff :
    (Node.binary span op l r).EveryLeaf P ↔ l.EveryLeaf P ∧ r.EveryLeaf P :=
  List.forall_mem_append

@[simp] theorem everyLeaf_concat_iff :
    (Node.concat span l r).EveryLeaf P ↔ l.EveryLeaf P ∧ r.EveryLeaf P :=
  List.forall_mem_append

@[simp] theorem everyLeaf_strCompare_iff :
    (Node.strCompare span op l r).EveryLeaf P ↔ l.EveryLeaf P ∧ r.EveryLeaf P :=
  List.forall_mem_append

@[simp] theorem everyLeaf_list_iff {elems : List Node} :
    (Node.list span elems).EveryLeaf P ↔ ∀ e ∈ elems, e.EveryLeaf P :=
  forall_leavesOf_iff

@[simp] theorem everyLeaf_call_iff {callee : Node} {args : List Node} :
    (Node.call span callee args).EveryLeaf P ↔
      (∀ x ∈ callee.calleeLeaves, P x) ∧ ∀ a ∈ args, a.EveryLeaf P :=
  List.forall_mem_append.trans (and_congr_right fun _ => forall_leavesOf_iff)

@[simp] theorem everyLeaf_block_iff {stmts : List Node} {synthetic : Bool} :
    (Node.block span stmts synthetic).EveryLeaf P ↔ ∀ s ∈ stmts, s.EveryLeaf P :=
  forall_leavesOf_iff

@[simp] theorem everyLeaf_assign_iff {lhs rhs : Node} :
    (Node.assign span lhs rhs).EveryLeaf P ↔ lhs.EveryLeaf P ∧ rhs.EveryLeaf P :=
  List.forall_mem_append

@[simp] theorem everyLeaf_branch_iff {thenBody elseBody : Node} :
    (Node.branch span cond thenBody elseBody).EveryLeaf P ↔
      cond.EveryLeaf P ∧ thenBody.EveryLeaf P ∧ elseBody.EveryLeaf P :=
  List.forall_mem_append.trans ((and_congr_left fun _ => List.forall_mem_append).trans and_assoc)

@[simp] theorem everyLeaf_loop_iff :
    (Node.loop span cond body).EveryLeaf P ↔ cond.EveryLeaf P ∧ body.EveryLeaf P :=
  List.forall_mem_append

@[simp] theorem everyLeaf_ret_iff : (Node.ret span e).EveryLeaf P ↔ e.EveryLeaf P :=
  Iff.rfl

@[simp] theorem everyLeaf_func_iff {params : List Node} :
    (Node.func span name params body).EveryLeaf P ↔
      P (.callee name) ∧ (∀ p ∈ params, p.EveryLeaf P) ∧ body.EveryLeaf P :=
  List.forall_mem_cons.trans (and_congr_right fun _ =>
    List.forall_mem_append.trans (and_congr_left fun _ => forall_leavesOf_iff))

end

end Node

end BatchCompiler
