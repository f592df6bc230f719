import BatchCompiler.Proofs.Scope.Relabelling
import BatchCompiler.Proofs.Syntax.Keeping

/-!
# Scopes of interleaved items

Statements declare names at the top level and functions declare names of their own, so the two do not
meet: the scopes of a program depend on the sequence of its statements and on the sequence of its
functions only. No name that they hold is one that is set aside.
-/

namespace BatchCompiler

namespace Node

def statementsAmong (ns : List Node) : List Node :=
  ns.filter fun n => !n.isFunc

def functionsAmong (ns : List Node) : List Node :=
  ns.filter isFunc

structure SameItems (ns ns' : List Node) : Prop where
  statements : statementsAmong ns' = statementsAmong ns
  functions : functionsAmong ns' = functionsAmong ns

theorem statementsAmong_cons {n : Node} (hn : n.isFunc = false) (rest : List Node) :
    statementsAmong (n :: rest) = n :: statementsAmong rest :=
  List.filter_cons_of_pos (by rw [hn]; rfl)

theorem statementsAmong_cons_func {n : Node} (hn : n.isFunc = true) (rest : List Node) :
    statementsAmong (n :: rest) = statementsAmong rest :=
  List.filter_cons_of_neg (by rw [hn]; decide)

theorem functionsAmong_cons {n : Node} (hn : n.isFunc = false) (rest : List Node) :
    functionsAmong (n :: rest) = functionsAmong rest :=
  List.filter_cons_of_neg (by rw [hn]; decide)

theorem functionsAmong_cons_func {n : Node} (hn : n.isFunc = true) (rest : List Node) :
    functionsAmong (n :: rest) = n :: functionsAmong rest :=
  List.filter_cons_of_pos hn

theorem statementsAmong_append (a b : List Node) :
    statementsAmong (a ++ b) = statementsAmong a ++ statementsAmong b :=
  List.filter_append ..

theorem functionsAmong_append (a b : List Node) :
    functionsAmong (a ++ b) = functionsAmong a ++ functionsAmong b :=
  List.filter_append ..

end Node

namespace ScopeTable

open Node

variable {n : Node} {ns ns' : List Node} {t : ScopeTable}

theorem eq_functionsAmong {α : Type} {f : List Node → α}
    (hSkip : ∀ {n}, n.isFunc = false → ∀ rest, f (n :: rest) = f rest)
    (hKeep : ∀ n {rest rest'}, f rest = f rest' → f (n :: rest) = f (n :: rest'))
    (ns : List Node) : f (functionsAmong ns) = f ns := by
  induction ns with
  | nil => rfl
  | cons n rest ih =>
    cases hFunc : n.isFunc with
    | false => rw [functionsAmong_cons hFunc, hSkip hFunc, ih]
    | true =>
      rw [functionsAmong_cons_func hFunc]
      exact hKeep n ih

theorem declaredFunctions_functionsAmong (ns : List Node) :
    declaredFunctions (functionsAmong ns) = declaredFunctions ns :=
  eq_functionsAmong declaredFunctions_cons (fun n _ _ h => by cases n <;> simp [declaredFunctions, h])
    ns

theorem functionScopes_functionsAmong (ns : List Node) :
    functionScopes (functionsAmong ns) = functionScopes ns :=
  eq_functionsAmong (fun {n} h rest => by cases n <;> first | rfl | cases h)
    (fun n _ _ h => by cases n <;> simp [functionScopes, h]) ns

theorem repeatedDeclarations_functionsAmong (seen : List String) (ns : List Node) :
    repeatedDeclarations seen (functionsAmong ns) = repeatedDeclarations seen ns :=
  congrFun (eq_functionsAmong (f := fun ns seen => repeatedDeclarations seen ns)
    (fun {n} h rest => by cases n <;> first | rfl | cases h)
    (fun n _ _ h => funext fun seen => by
      cases n <;> simp only [repeatedDeclarations, congrFun h]) ns) seen

theorem topDeclared_statementsAmong (ns : List Node) :
    topDeclared (statementsAmong ns) = topDeclared ns := by
  induction ns with
  | nil => rfl
  | cons n rest ih =>
    cases hFunc : n.isFunc with
    | false =>
      rw [statementsAmong_cons hFunc]
      cases n <;> simp only [topDeclared, ih]
    | true =>
      rw [statementsAmong_cons_func hFunc, ih]
      cases n with
      | func => rfl
      | _ => cases hFunc

theorem isAbsent_of_isItem (h : n.isItem = true) : n.isAbsent = false := by
  cases n with
  | absent => cases h
  | _ => rfl

theorem build_sameItems {root root' : Node} (hItems : ∀ n ∈ itemsOf root, n.isItem = true)
    (hItems' : ∀ n ∈ itemsOf root', n.isItem = true)
    (hSame : SameItems (itemsOf root) (itemsOf root')) : build root' = build root := by
  rw [build_eq hItems, build_eq hItems', recorded, recorded,
    ← repeatedDeclarations_functionsAmong [] (itemsOf root'),
    ← functionScopes_functionsAmong (itemsOf root'), ← topDeclared_statementsAmong (itemsOf root'),
    hSame.statements, hSame.functions, repeatedDeclarations_functionsAmong,
    functionScopes_functionsAmong, topDeclared_statementsAmong]

end ScopeTable

structure Scope.Plain (s : Scope) : Prop where
  counter : s.counter = 0
  free : ∀ x ∈ s.symbols, Text.startsWith Syntax.Parser.reservedLead x.name = false

theorem Scope.mem_of_mem_firsts {xs : List Symbol} {x : Symbol} (h : x ∈ firsts xs) : x ∈ xs := by
  induction xs with
  | nil => exact h
  | cons y rest ih =>
    rcases List.mem_cons.mp h with rfl | hRest
    · exact List.mem_cons_self
    · exact List.mem_cons_of_mem y (ih (List.mem_filter.mp hRest).1)

theorem Scope.plain_firsts {xs : List Symbol} (name : String)
    (h : ∀ x ∈ xs, Text.startsWith Syntax.Parser.reservedLead x.name = false) :
    Scope.Plain { name := name, symbols := (firsts xs).reverse } :=
  ⟨rfl, fun x hx => h x (mem_of_mem_firsts (List.mem_reverse.mp hx))⟩

namespace ScopeTable

open Node

variable {t : ScopeTable} {s : Scope} {ns : List Node} {n : Node}

structure Plain (t : ScopeTable) : Prop where
  top : t.top.Plain
  functions : ∀ s ∈ t.functions, s.Plain

theorem Plain.scope (h : t.Plain) {r : Region} (hs : t.scope? r = some s) : s.Plain := by
  cases r with
  | top =>
    cases hs
    exact h.top
  | function name => exact h.functions s (List.mem_of_find?_eq_some hs)

theorem free_namesAs {kind : SymbolKind} (h : ∀ n ∈ ns, n.isFreeName = true) :
    ∀ x ∈ namesAs kind ns, Text.startsWith Syntax.Parser.reservedLead x.name = false := by
  induction ns with
  | nil => exact List.forall_mem_nil _
  | cons n rest ih =>
    obtain ⟨hn, hRest⟩ := List.forall_mem_cons.mp h
    obtain ⟨span, name, rfl⟩ := exists_eq_ident hn
    exact List.forall_mem_cons.mpr ⟨by simpa [isFreeName] using hn, ih hRest⟩

theorem free_of_rootName? (hn : n.isExpression = true) {root : Span × String}
    (h : rootName? n = some root) : Text.startsWith Syntax.Parser.reservedLead root.2 = false := by
  induction n using Node.induction with
  | ident place x =>
    cases h
    simpa [isExpression, isFreeName] using hn
  | subscript place array index ih =>
    simp only [isExpression, Bool.and_eq_true] at hn
    exact ih hn.1.2 h
  | _ => cases h

theorem free_declares (h : n.IsPart) :
    ∀ x ∈ declares n, Text.startsWith Syntax.Parser.reservedLead x.name = false := by
  cases n with
  | assign span lhs rhs =>
    intro x hx
    obtain ⟨root, hRoot, rfl⟩ := List.mem_map.mp hx
    exact free_of_rootName? (isPart_assign_iff.mp h).2.1 (Option.mem_toList.mp hRoot)
  | globals span names => exact free_namesAs (isPart_globals_iff.mp h)
  | _ => exact List.forall_mem_nil _

theorem free_declaredBy (h : n.isStatement = true) :
    ∀ x ∈ declaredBy n, Text.startsWith Syntax.Parser.reservedLead x.name = false := by
  intro x hx
  obtain ⟨part, hPart, hDeclares⟩ := List.mem_flatMap.mp hx
  exact free_declares (isPart_of_mem_walk (isItem_of_isStatement h) part hPart) x hDeclares

theorem free_topDeclared (h : ∀ n ∈ ns, n.isItem = true) :
    ∀ x ∈ topDeclared ns, Text.startsWith Syntax.Parser.reservedLead x.name = false := by
  induction ns with
  | nil => exact List.forall_mem_nil _
  | cons n rest ih =>
    obtain ⟨hn, hRest⟩ := List.forall_mem_cons.mp h
    cases n with
    | func => exact ih hRest
    | _ => exact List.forall_mem_append.mpr ⟨free_declaredBy hn, ih hRest⟩

theorem plain_functionScopes (h : ∀ n ∈ ns, n.isItem = true) : ∀ s ∈ functionScopes ns, s.Plain := by
  induction ns with
  | nil => exact List.forall_mem_nil _
  | cons n rest ih =>
    obtain ⟨hn, hRest⟩ := List.forall_mem_cons.mp h
    cases n with
    | func span name params body =>
      simp only [isItem, Bool.and_eq_true, List.all_eq_true] at hn
      exact List.forall_mem_cons.mpr ⟨Scope.plain_firsts name (List.forall_mem_append.mpr
        ⟨free_namesAs hn.1.2, free_declaredBy hn.2⟩), ih hRest⟩
    | _ => exact ih hRest

theorem plain_build {root : Node} (hItems : ∀ n ∈ itemsOf root, n.isItem = true)
    (h : build root = .ok t) : t.Plain := by
  rw [build_eq hItems] at h
  cases hFaults : repeatedDeclarations [] (itemsOf root) with
  | cons fault others =>
    rw [hFaults] at h
    cases h
  | nil =>
    rw [hFaults] at h
    cases h
    exact ⟨Scope.plain_firsts _ (free_topDeclared hItems), plain_functionScopes hItems⟩

end ScopeTable

end BatchCompiler
