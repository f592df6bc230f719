import BatchCompiler.Proofs.Syntax.Conventions
import BatchCompiler.Proofs.Syntax.Relabelling

/-!
# Recasting

A tree may be relabelled and its variables renamed at once. What is called, declared a function,
listed as a parameter or as global keeps its name.
-/

namespace BatchCompiler

structure Recast extends Relabel where
  name : String → String

def Relabel.keepingNames (g : Relabel) : Recast :=
  { g with name := id }

def Relabel.same : Relabel where
  place := id
  text := id
  remark := id
  nowhere := rfl

def Recast.ofNames (name : String → String) : Recast :=
  { Relabel.same with name := name }

structure Relabel.Moves (g : Relabel) : Prop where
  text : g.text = id
  remark : g.remark = id

theorem Recast.moves_ofNames (name : String → String) : (ofNames name).Moves :=
  ⟨rfl, rfl⟩

namespace Node

variable (r : Recast)

mutual

def recast : Node → Node
  | .absent => .absent
  | .bool span v => .bool (r.place span) v
  | .number span v => .number (r.place span) v
  | .float span v => .float (r.place span) v
  | .string span s => .string (r.place span) (r.text s)
  | .list span elems => .list (r.place span) (recastAll elems)
  | .ident span name => .ident (r.place span) (r.name name)
  | .subscript span array index => .subscript (r.place span) array.recast index.recast
  | .unary span op e => .unary (r.place span) op e.recast
  | .binary span op l e => .binary (r.place span) op l.recast e.recast
  | .concat span l e => .concat (r.place span) l.recast e.recast
  | .strCompare span op l e => .strCompare (r.place span) op l.recast e.recast
  | .call span callee args => .call (r.place span) (callee.relabel r.toRelabel) (recastAll args)
  | .comment span s => .comment (r.place span) (r.remark s)
  | .block span stmts synthetic => .block (r.place span) (recastAll stmts) synthetic
  | .assign span lhs rhs => .assign (r.place span) lhs.recast rhs.recast
  | .branch span cond thenBody elseBody =>
    .branch (r.place span) cond.recast thenBody.recast elseBody.recast
  | .loop span cond body => .loop (r.place span) cond.recast body.recast
  | .ret span e => .ret (r.place span) e.recast
  | .globals span names => .globals (r.place span) (relabelAll r.toRelabel names)
  | .empty span => .empty (r.place span)
  | .func span name params body =>
    .func (r.place span) name (relabelAll r.toRelabel params) body.recast

def recastAll : List Node → List Node
  | [] => []
  | n :: rest => n.recast :: recastAll rest

end

variable {r}

theorem recastAll_eq_map (ns : List Node) : recastAll r ns = ns.map (recast r) := by
  induction ns with
  | nil => rfl
  | cons n rest ih => rw [recastAll, ih, List.map_cons]

@[simp] theorem isAbsent_recast (n : Node) : (n.recast r).isAbsent = n.isAbsent := by
  cases n <;> rfl

@[simp] theorem isComparison_recast (n : Node) : (n.recast r).isComparison = n.isComparison := by
  cases n <;> rfl

@[simp] theorem span_recast (n : Node) : (n.recast r).span = r.place n.span := by
  cases n with
  | absent => exact r.nowhere.symm
  | _ => rfl

theorem recast_keepingNames (g : Relabel) (n : Node) : n.recast g.keepingNames = n.relabel g := by
  have hAll : ∀ ns : List Node, (∀ n ∈ ns, n.recast g.keepingNames = n.relabel g) →
      recastAll g.keepingNames ns = relabelAll g ns := by
    intro ns hns
    rw [recastAll_eq_map, relabelAll_eq_map]
    exact List.map_congr_left hns
  induction n using Node.induction with
  | list span ns ih | call span callee ns _ ih | block span ns synthetic ih =>
    rw [recast, relabel, hAll ns ih]; rfl
  | subscript span a i iha ihi | binary span op a i iha ihi | concat span a i iha ihi
  | strCompare span op a i iha ihi | assign span a i iha ihi | loop span a i iha ihi =>
    rw [recast, relabel, iha, ihi]; rfl
  | branch span c t e ihc iht ihe => rw [recast, relabel, ihc, iht, ihe]; rfl
  | unary span op e ih | ret span e ih | func span name params body _ ih =>
    rw [recast, relabel, ih]; rfl
  | _ => rfl

theorem recastAll_eq_self {ns : List Node} (h : ∀ n ∈ ns, n.recast r = n) : recastAll r ns = ns := by
  rw [recastAll_eq_map]
  exact (List.map_congr_left h).trans (List.map_id' ns)

theorem relabelAll_eq_self {g : Relabel} {ns : List Node}
    (h : ∀ n ∈ ns, n.recast g.keepingNames = n) : relabelAll g ns = ns := by
  rw [relabelAll_eq_map]
  exact (List.map_congr_left fun n hn => (recast_keepingNames g n).symm.trans (h n hn)).trans
    (List.map_id' ns)

/-- Names of functions and those that are declared count as well, but are never renamed. -/
def KeptBy (r : Recast) : Node → Prop
  | ident _ name => r.name name = name
  | _ => True

theorem keptBy_keepingNames (g : Relabel) (n : Node) : n.KeptBy g.keepingNames := by
  cases n <;> trivial

theorem recast_eq_self {n : Node} (hPlace : r.place = id) (hMoves : r.Moves)
    (h : ∀ x ∈ n.walk, x.KeptBy r) : n.recast r = n := by
  induction n using Node.induction generalizing r with
  | absent => rfl
  | string span s => rw [recast, hPlace, hMoves.text]; rfl
  | comment span s => rw [recast, hPlace, hMoves.remark]; rfl
  | ident span name => rw [recast, hPlace, show r.name name = name from h _ List.mem_cons_self]; rfl
  | list span elems ih | block span elems _ ih =>
    simp only [walk, List.forall_mem_cons, forall_walkAll_iff] at h
    rw [recast, recastAll_eq_self fun e he => ih e he hPlace hMoves (h.2 e he), hPlace]; rfl
  | unary span op e ih | ret span e ih =>
    rw [recast, ih hPlace hMoves (List.forall_mem_cons.mp h).2, hPlace]; rfl
  | subscript span a i iha ihi | binary span op a i iha ihi | concat span a i iha ihi
  | strCompare span op a i iha ihi | assign span a i iha ihi | loop span a i iha ihi =>
    simp only [walk, List.forall_mem_cons, List.forall_mem_append] at h
    rw [recast, iha hPlace hMoves h.2.1, ihi hPlace hMoves h.2.2, hPlace]; rfl
  | branch span c t e ihc iht ihe =>
    simp only [walk, List.forall_mem_cons, List.forall_mem_append] at h
    rw [recast, ihc hPlace hMoves h.2.1.1, iht hPlace hMoves h.2.1.2, ihe hPlace hMoves h.2.2, hPlace]
    rfl
  | call span callee args ihCallee ih =>
    simp only [walk, List.forall_mem_cons, List.forall_mem_append, forall_walkAll_iff] at h
    have hCallee : callee.recast r.keepingNames = callee :=
      ihCallee hPlace hMoves fun x _ => keptBy_keepingNames _ x
    rw [recast, ← recast_keepingNames, hCallee,
      recastAll_eq_self fun a ha => ih a ha hPlace hMoves (h.2.2 a ha), hPlace]
    rfl
  | globals span names ih =>
    rw [recast, relabelAll_eq_self fun n hn => ih n hn hPlace hMoves fun x _ => keptBy_keepingNames _ x,
      hPlace]
    rfl
  | func span name params body ihParams ih =>
    simp only [walk, List.forall_mem_cons, List.forall_mem_append] at h
    rw [recast, relabelAll_eq_self fun n hn =>
      ihParams n hn hPlace hMoves fun x _ => keptBy_keepingNames _ x, ih hPlace hMoves h.2.2, hPlace]
    rfl
  | _ => rw [recast, hPlace]; rfl

theorem relabelAll_of_eq_id {g : Relabel} (hPlace : g.place = id) (hMoves : g.Moves)
    (ns : List Node) : relabelAll g ns = ns :=
  relabelAll_eq_self fun _ _ => recast_eq_self hPlace hMoves fun x _ => keptBy_keepingNames g x

theorem recast_ofNames_id (n : Node) : n.recast (.ofNames id) = n :=
  recast_eq_self rfl ⟨rfl, rfl⟩ fun x _ => keptBy_keepingNames .same x

theorem recast_of_isStatement {rename : String → String} {n : Node}
    (hFree : ∀ x, Text.startsWith Syntax.Parser.reservedLead x = false → rename x = x)
    (h : n.isStatement = true) : n.recast (.ofNames rename) = n := by
  refine recast_eq_self rfl (Recast.moves_ofNames rename) fun x hx => ?_
  have hPart := isPart_of_mem_walk (isItem_of_isStatement h) x hx
  cases x with
  | ident span name =>
    exact hFree name (Bool.eq_false_iff.mpr fun hLead =>
      isPart_ident_iff.mp hPart (Text.startsWith_iff.mp hLead))
  | _ => trivial

section Shape

variable {g : Relabel}

@[simp] theorem isNumber_relabel (n : Node) : (n.relabel g).isNumber = n.isNumber := by
  cases n <;> rfl

@[simp] theorem isFreeName_relabel (n : Node) : (n.relabel g).isFreeName = n.isFreeName := by
  cases n <;> rfl

theorem all_isFreeName_relabelAll (ns : List Node) :
    (relabelAll g ns).all isFreeName = ns.all isFreeName := by
  have hSame : isFreeName ∘ relabel g = isFreeName := funext isFreeName_relabel
  rw [relabelAll_eq_map, List.all_map, hSame]

theorem areExpressions_relabelAll {ns : List Node}
    (h : ∀ n ∈ ns, (n.relabel g).isExpression = n.isExpression) :
    areExpressions (relabelAll g ns) = areExpressions ns := by
  induction ns with
  | nil => rfl
  | cons n rest ih =>
    obtain ⟨hn, hRest⟩ := List.forall_mem_cons.mp h
    rw [relabelAll, areExpressions, areExpressions, hn, ih hRest]

@[simp] theorem isExpression_relabel (n : Node) : (n.relabel g).isExpression = n.isExpression := by
  induction n using Node.induction with
  | list span elems ih => exact areExpressions_relabelAll ih
  | subscript span array index ihArray ihIndex =>
    simp only [relabel, isExpression, isPlace_relabel, ihArray, ihIndex]
  | unary span op e ih => simp only [relabel, isExpression, isNumber_relabel, ih]
  | binary span op a b iha ihb | concat span a b iha ihb | strCompare span op a b iha ihb =>
    simp only [relabel, isExpression, isStringy_relabel, iha, ihb]
  | call span callee args _ ih =>
    simp only [relabel, isExpression, isFreeName_relabel, areExpressions_relabelAll ih]
  | _ => rfl

theorem areStatements_relabelAll {ns : List Node}
    (h : ∀ n ∈ ns, (n.relabel g).isStatement = n.isStatement) :
    areStatements (relabelAll g ns) = areStatements ns := by
  induction ns with
  | nil => rfl
  | cons n rest ih =>
    obtain ⟨hn, hRest⟩ := List.forall_mem_cons.mp h
    rw [relabelAll, areStatements, areStatements, hn, ih hRest]

@[simp] theorem isStatement_relabel (n : Node) : (n.relabel g).isStatement = n.isStatement := by
  induction n using Node.induction with
  | call span callee args => exact isExpression_relabel (.call span callee args)
  | block span stmts synthetic ih =>
    simp only [relabel, isStatement, areStatements_relabelAll ih]
  | assign span lhs rhs =>
    simp only [relabel, isStatement, isPlace_relabel, isExpression_relabel]
  | branch span cond thenBody elseBody _ ihThen ihElse =>
    simp only [relabel, isStatement, isExpression_relabel, isAbsent_relabel, ihThen, ihElse]
  | loop span cond body _ ihBody => simp only [relabel, isStatement, isExpression_relabel, ihBody]
  | ret span e => simp only [relabel, isStatement, isAbsent_relabel, isExpression_relabel]
  | globals span names => exact all_isFreeName_relabelAll names
  | _ => rfl

@[simp] theorem isItem_relabel (n : Node) : (n.relabel g).isItem = n.isItem := by
  cases n with
  | func span name params body =>
    simp only [relabel, isItem, all_isFreeName_relabelAll, isStatement_relabel]
  | _ => exact isStatement_relabel _

end Shape

end Node

end BatchCompiler
