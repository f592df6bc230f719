import BatchCompiler.Proofs.Scope.Building
import BatchCompiler.Proofs.Syntax.Recasting

/-!
# Scopes of relabelled trees

A relabelled tree declares what the tree declares, at the new places.
-/

namespace BatchCompiler

variable {g : Relabel}

def Symbol.relabel (g : Relabel) (x : Symbol) : Symbol :=
  { x with span := g.place x.span }

namespace Scope

def relabel (g : Relabel) (s : Scope) : Scope :=
  { s with symbols := s.symbols.map (Symbol.relabel g) }

theorem find?_relabel (s : Scope) (name : String) :
    (s.relabel g).find? name = (s.find? name).map (Symbol.relabel g) :=
  List.find?_map ..

theorem declare_relabel (s : Scope) (x : Symbol) :
    ((s.relabel g).declare (x.relabel g)).2 = (s.declare x).2.relabel g := by
  have hName : (x.relabel g).name = x.name := rfl
  unfold declare
  rw [hName, find?_relabel]
  cases s.find? x.name with
  | none => rfl
  | some old => rfl

theorem fresh_relabel (s : Scope) (outer : List Symbol) (stem : String) :
    (s.relabel g).fresh (outer.map (Symbol.relabel g)) stem =
      ((s.fresh outer stem).1, (s.fresh outer stem).2.relabel g) := by
  have hTaken : ((s.relabel g).symbols ++ outer.map (Symbol.relabel g)).map Symbol.name =
      (s.symbols ++ outer).map Symbol.name := by
    rw [relabel, ← List.map_append, List.map_map]
    rfl
  have hPlain : ∀ name, ({ name := name, kind := .temporary } : Symbol) =
      Symbol.relabel g { name := name, kind := .temporary } := by
    intro name
    rw [Symbol.relabel, g.nowhere]
  unfold fresh
  dsimp only
  rw [hTaken]
  congr 1
  rw [hPlain, declare_relabel]
  rfl

end Scope

namespace Node

theorem walkAll_relabel {ns : List Node}
    (h : ∀ n ∈ ns, (n.relabel g).walk = n.walk.map (relabel g)) :
    walkAll (relabelAll g ns) = (walkAll ns).map (relabel g) := by
  induction ns with
  | nil => rfl
  | cons n rest ih =>
    obtain ⟨hn, hRest⟩ := List.forall_mem_cons.mp h
    rw [relabelAll, walkAll, walkAll, hn, ih hRest, List.map_append]

theorem walk_relabel (n : Node) : (n.relabel g).walk = n.walk.map (relabel g) := by
  induction n using Node.induction with
  | list span elems ih | block span elems synthetic ih | globals span elems ih =>
    simp only [relabel, walk, List.map_cons, walkAll_relabel ih]
  | subscript span a b iha ihb | binary span op a b iha ihb | concat span a b iha ihb
  | strCompare span op a b iha ihb | assign span a b iha ihb | loop span a b iha ihb =>
    simp only [relabel, walk, iha, ihb, List.map_cons, List.map_append]
  | unary span op e ih | ret span e ih => simp only [relabel, walk, ih, List.map_cons]
  | call span callee args ihCallee ih =>
    simp only [relabel, walk, ihCallee, walkAll_relabel ih, List.map_cons, List.map_append]
  | branch span cond thenBody elseBody ihCond ihThen ihElse =>
    simp only [relabel, walk, ihCond, ihThen, ihElse, List.map_cons, List.map_append]
  | func span name params body ihParams ihBody =>
    simp only [relabel, walk, walkAll_relabel ihParams, ihBody, List.map_cons, List.map_append]
  | _ => rfl

end Node

namespace ScopeTable

def relabel (g : Relabel) (t : ScopeTable) : ScopeTable where
  top := t.top.relabel g
  functions := t.functions.map (Scope.relabel g)

theorem functionScope?_relabel (t : ScopeTable) (name : String) :
    (t.relabel g).functionScope? name = (t.functionScope? name).map (Scope.relabel g) :=
  List.find?_map ..

theorem scope?_relabel (t : ScopeTable) (r : Region) :
    (t.relabel g).scope? r = (t.scope? r).map (Scope.relabel g) := by
  cases r with
  | top => rfl
  | function name => exact functionScope?_relabel t name

theorem outer_relabel (t : ScopeTable) (r : Region) :
    (t.relabel g).outer r = (t.outer r).map (Symbol.relabel g) := by
  cases r <;> rfl

theorem setScope_relabel (t : ScopeTable) (r : Region) (s : Scope) :
    (t.relabel g).setScope r (s.relabel g) = (t.setScope r s).relabel g := by
  cases r with
  | top => rfl
  | function name =>
    simp only [setScope, relabel, List.map_map, ScopeTable.mk.injEq, true_and]
    refine List.map_congr_left fun f _ => ?_
    rw [Function.comp_apply, Function.comp_apply]
    have hName : (f.relabel g).name = f.name := rfl
    rw [hName]
    split <;> rfl

theorem fresh?_relabel (t : ScopeTable) (r : Region) (stem : String) :
    (t.relabel g).fresh? r stem =
      (t.fresh? r stem).map fun x => (x.1, x.2.relabel g) := by
  unfold fresh?
  rw [scope?_relabel, Option.map_map, Option.map_map]
  congr 1
  funext s
  simp only [Function.comp_apply, outer_relabel, Scope.fresh_relabel, setScope_relabel]

def BuildError.relabel (g : Relabel) : BuildError → BuildError
  | .rejected span problem => .rejected (g.place span) problem
  | .crash why => .crash why

def relabelResult {α : Type} (g : Relabel) (f : α → α) (x : Except BuildError α) :
    Except BuildError α :=
  (x.map f).mapError (BuildError.relabel g)

theorem itemsOf_relabel (root : Node) :
    itemsOf (root.relabel g) = (itemsOf root).map (Node.relabel g) := by
  cases root with
  | block span stmts synthetic => exact Node.relabelAll_eq_map stmts
  | _ => rfl

theorem rootName?_relabel (n : Node) :
    rootName? (n.relabel g) = (rootName? n).map fun x => (g.place x.1, x.2) := by
  induction n using Node.induction with
  | subscript span array index ih => exact ih
  | _ => rfl

theorem relabelResult_okUnless {α : Type} (f : α → α) (faults : List (Span × DeclarationProblem))
    (a : α) : relabelResult g f (okUnless faults a) =
      okUnless (faults.map fun x => (g.place x.1, x.2)) (f a) := by
  cases faults <;> rfl

theorem namesAs_relabel (kind : SymbolKind) (ns : List Node) :
    namesAs kind (Node.relabelAll g ns) = (namesAs kind ns).map (Symbol.relabel g) := by
  induction ns with
  | nil => rfl
  | cons n rest ih =>
    cases n with
    | ident span name => exact congrArg (_ :: ·) ih
    | _ => exact ih

theorem declares_relabel (n : Node) :
    declares (n.relabel g) = (declares n).map (Symbol.relabel g) := by
  cases n with
  | assign span lhs rhs =>
    rw [Node.relabel, declares, declares, rootName?_relabel]
    cases rootName? lhs <;> rfl
  | globals span names => exact namesAs_relabel .globalName names
  | _ => rfl

theorem declaredBy_relabel (n : Node) :
    declaredBy (n.relabel g) = (declaredBy n).map (Symbol.relabel g) := by
  simp only [declaredBy, Node.walk_relabel, List.flatMap_map, List.map_flatMap, declares_relabel]

theorem firsts_relabel (xs : List Symbol) :
    Scope.firsts (xs.map (Symbol.relabel g)) = (Scope.firsts xs).map (Symbol.relabel g) := by
  induction xs with
  | nil => rfl
  | cons x rest ih =>
    rw [List.map_cons, Scope.firsts, ih, List.filter_map]
    rfl

theorem topDeclared_relabel (items : List Node) :
    topDeclared (items.map (Node.relabel g)) = (topDeclared items).map (Symbol.relabel g) := by
  induction items with
  | nil => rfl
  | cons n rest ih =>
    cases n with
    | func span name params body => exact ih
    | _ => exact (congrArg₂ (· ++ ·) (declaredBy_relabel _) ih).trans List.map_append.symm

theorem functionScopes_relabel (items : List Node) :
    functionScopes (items.map (Node.relabel g)) = (functionScopes items).map (Scope.relabel g) := by
  induction items with
  | nil => rfl
  | cons n rest ih =>
    cases n with
    | func span name params body =>
      rw [List.map_cons, Node.relabel, functionScopes, functionScopes, namesAs_relabel,
        declaredBy_relabel, ← List.map_append, firsts_relabel, ← List.map_reverse, ih]
      rfl
    | _ => exact ih

theorem repeatedParameters_relabel (function : String) (seen : List String) (xs : List Symbol) :
    repeatedParameters function seen (xs.map (Symbol.relabel g)) =
      (repeatedParameters function seen xs).map fun x => (g.place x.1, x.2) := by
  induction xs generalizing seen with
  | nil => rfl
  | cons x rest ih =>
    have hName : (x.relabel g).name = x.name := rfl
    rw [List.map_cons, repeatedParameters, repeatedParameters, List.map_append, hName, ih]
    by_cases h : x.name ∈ seen
    · simp [h, Symbol.relabel]
    · simp [h]

theorem repeatedDeclarations_relabel (seen : List String) (items : List Node) :
    repeatedDeclarations seen (items.map (Node.relabel g)) =
      (repeatedDeclarations seen items).map fun x => (g.place x.1, x.2) := by
  induction items generalizing seen with
  | nil => rfl
  | cons n rest ih =>
    cases n with
    | func span name params body =>
      rw [List.map_cons, Node.relabel, repeatedDeclarations, repeatedDeclarations, namesAs_relabel,
        repeatedParameters_relabel, ih, List.map_append, List.map_append]
      split <;> rfl
    | _ => exact ih seen

theorem build_relabel {root : Node} (h : ∀ n ∈ itemsOf root, n.isItem = true) (g : Relabel) :
    build (root.relabel g) = relabelResult g (relabel g) (build root) := by
  have hMoved : ∀ n ∈ itemsOf (root.relabel g), n.isItem = true := by
    rw [itemsOf_relabel]
    simpa using h
  have hRecorded : recorded (itemsOf (root.relabel g)) = (recorded (itemsOf root)).relabel g := by
    rw [itemsOf_relabel, recorded, topDeclared_relabel, functionScopes_relabel, firsts_relabel,
      ← List.map_reverse]
    rfl
  rw [build_eq hMoved, build_eq h, relabelResult_okUnless, hRecorded, itemsOf_relabel,
    repeatedDeclarations_relabel]

end ScopeTable

end BatchCompiler
