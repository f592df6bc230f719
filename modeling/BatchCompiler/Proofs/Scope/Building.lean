import BatchCompiler.Proofs.Lowering.Acceptance
import BatchCompiler.Proofs.Syntax.Conventions
import Mathlib.Data.List.Nodup

/-!
# What a scope table holds

The table of a program is read off its declarations. A scope holds the first occurrence of every name
that its region declares, and the table is refused at the first declaration that repeats another.
-/

namespace BatchCompiler

namespace Scope

def declareAll (s : Scope) (xs : List Symbol) : Scope :=
  xs.foldl (fun s x => (s.declare x).2) s

def firsts : List Symbol → List Symbol
  | [] => []
  | x :: rest => x :: (firsts rest).filter fun y => y.name != x.name

theorem isSome_find?_iff {s : Scope} {name : String} :
    (s.find? name).isSome = true ↔ name ∈ s.symbols.map Symbol.name := by
  simp [find?]

theorem declare_of_mem {s : Scope} {x : Symbol} (h : x.name ∈ s.symbols.map Symbol.name) :
    (s.declare x).2 = s := by
  obtain ⟨y, hy⟩ := Option.isSome_iff_exists.mp (isSome_find?_iff.mpr h)
  simp [declare, hy]

theorem declare_of_notMem {s : Scope} {x : Symbol} (h : x.name ∉ s.symbols.map Symbol.name) :
    (s.declare x).2 = { s with symbols := x :: s.symbols } := by
  rw [← isSome_find?_iff, Bool.not_eq_true, Option.isSome_eq_false_iff, Option.isNone_iff_eq_none] at h
  simp [declare, h]

theorem declareAll_eq (s : Scope) (xs : List Symbol) :
    s.declareAll xs = { s with symbols :=
      ((firsts xs).filter fun x => x.name ∉ s.symbols.map Symbol.name).reverse ++ s.symbols } := by
  induction xs generalizing s with
  | nil => rfl
  | cons x rest ih =>
    change (s.declare x).2.declareAll rest = _
    by_cases hx : x.name ∈ s.symbols.map Symbol.name
    · rw [declare_of_mem hx, ih, firsts, List.filter_cons_of_neg (by simpa using hx),
        List.filter_filter]
      congr 3
      apply List.filter_congr
      grind
    · rw [declare_of_notMem hx, ih, firsts, List.filter_cons_of_pos (by simpa using hx),
        List.filter_filter]
      simp only [List.reverse_cons, List.append_assoc, List.singleton_append]
      congr 3
      apply List.filter_congr
      grind

theorem declareAll_empty (name : String) (xs : List Symbol) :
    declareAll { name := name } xs = { name := name, symbols := (firsts xs).reverse } := by
  simp [declareAll_eq]

theorem declareAll_append (s : Scope) (xs ys : List Symbol) :
    (s.declareAll xs).declareAll ys = s.declareAll (xs ++ ys) :=
  List.foldl_append.symm

theorem declareAll_name (s : Scope) (xs : List Symbol) : (s.declareAll xs).name = s.name := by
  rw [declareAll_eq]

end Scope

namespace ScopeTable

open Node Lowering

def namesAs (kind : SymbolKind) : List Node → List Symbol
  | [] => []
  | .ident span name :: rest => { name := name, kind := kind, span := span } :: namesAs kind rest
  | _ :: rest => namesAs kind rest

/-- What a node declares of itself: the root of the place that it assigns, or names as global. -/
def declares : Node → List Symbol
  | .assign _ lhs _ =>
    (rootName? lhs).toList.map fun root => { name := root.2, kind := .var, span := root.1 }
  | .globals _ names => namesAs .globalName names
  | _ => []

def declaredBy (n : Node) : List Symbol :=
  n.walk.flatMap declares

def topDeclared : List Node → List Symbol
  | [] => []
  | .func _ _ _ _ :: rest => topDeclared rest
  | n :: rest => declaredBy n ++ topDeclared rest

def functionScopes : List Node → List Scope
  | [] => []
  | .func _ name params body :: rest =>
    { name := name
      symbols := (Scope.firsts (namesAs .parameter params ++ declaredBy body)).reverse } ::
      functionScopes rest
  | _ :: rest => functionScopes rest

def recorded (items : List Node) : ScopeTable where
  top := { name := "global", symbols := (Scope.firsts (topDeclared items)).reverse }
  functions := functionScopes items

def repeatedParameters (function : String) (seen : List String) :
    List Symbol → List (Span × DeclarationProblem)
  | [] => []
  | x :: rest =>
    (if x.name ∈ seen then [(x.span, .repeatedParameter x.name function)] else []) ++
      repeatedParameters function (x.name :: seen) rest

/-- The declarations that repeat one before them, in source order: a function is there before its
parameters. -/
def repeatedDeclarations (seen : List String) : List Node → List (Span × DeclarationProblem)
  | [] => []
  | .func span name params _ :: rest =>
    (if name ∈ seen then [(span, .redefinedFunction name)] else []) ++
      repeatedParameters name [] (namesAs .parameter params) ++
      repeatedDeclarations (seen ++ [name]) rest
  | _ :: rest => repeatedDeclarations seen rest

def okUnless {α : Type} : List (Span × DeclarationProblem) → α → Except BuildError α
  | [], a => .ok a
  | (span, problem) :: _, _ => .error (.rejected span problem)

variable {s : Scope} {t : ScopeTable} {items names params : List Node} {n body : Node}
  {name function : String} {span : Span} {seen : List String}

theorem repeatedParameters_eq_nil_iff {xs : List Symbol} :
    repeatedParameters function seen xs = [] ↔
      (xs.map Symbol.name).Nodup ∧ ∀ x ∈ xs, x.name ∉ seen := by
  induction xs generalizing seen with
  | nil => simp [repeatedParameters]
  | cons x rest ih =>
    rw [repeatedParameters, List.append_eq_nil_iff, ih]
    grind

/-- Nothing is repeated when the functions have different names, and so have the parameters of each
function. -/
theorem repeatedDeclarations_eq_nil_iff :
    repeatedDeclarations seen items = [] ↔
      ((declaredFunctions items).Nodup ∧ ∀ x ∈ declaredFunctions items, x ∉ seen) ∧
      ∀ span name params body, .func span name params body ∈ items →
        ((namesAs .parameter params).map Symbol.name).Nodup := by
  induction items generalizing seen with
  | nil => simp [repeatedDeclarations, declaredFunctions]
  | cons item rest ih =>
    cases item with
    | func span name params body =>
      rw [repeatedDeclarations, List.append_eq_nil_iff, List.append_eq_nil_iff, ih,
        repeatedParameters_eq_nil_iff, declaredFunctions]
      grind
    | _ =>
      rw [repeatedDeclarations, ih, declaredFunctions]
      all_goals simp

theorem addParameters_eq (h : ∀ p ∈ params, p.isFreeName = true) :
    addParameters function s params =
      okUnless (repeatedParameters function (s.symbols.map Symbol.name) (namesAs .parameter params))
        (s.declareAll (namesAs .parameter params)) := by
  induction params generalizing s with
  | nil => rfl
  | cons p rest ih =>
    obtain ⟨hp, hRest⟩ := List.forall_mem_cons.mp h
    obtain ⟨span, name, rfl⟩ := exists_eq_ident hp
    rw [addParameters, namesAs, repeatedParameters]
    by_cases hName : name ∈ s.symbols.map Symbol.name
    · rw [if_pos (Scope.isSome_find?_iff.mpr hName), if_pos hName]
      rfl
    · rw [if_neg (fun h => hName (Scope.isSome_find?_iff.mp h)), if_neg hName, ih hRest]
      change _ = okUnless _ (Scope.declareAll (s.declare _).2 _)
      rw [Scope.declare_of_notMem hName]
      rfl

def parameterScopes : List Node → List Scope
  | [] => []
  | .func _ name params _ :: rest =>
    Scope.declareAll { name := name } (namesAs .parameter params) :: parameterScopes rest
  | _ :: rest => parameterScopes rest

theorem isFunction_iff : t.isFunction name = true ↔ name ∈ t.functionNames :=
  functionScope?_isSome_iff

theorem addFunctions_eq (h : ∀ n ∈ items, n.isItem = true) :
    addFunctions t items = okUnless (repeatedDeclarations t.functionNames items)
      { t with functions := t.functions ++ parameterScopes items } := by
  induction items generalizing t with
  | nil => simp [addFunctions, repeatedDeclarations, parameterScopes, okUnless]
  | cons item rest ih =>
    obtain ⟨hItem, hRest⟩ := List.forall_mem_cons.mp h
    cases item with
    | absent => cases hItem
    | func span name params body =>
      simp only [isItem, Bool.and_eq_true, List.all_eq_true] at hItem
      rw [addFunctions, repeatedDeclarations, addParameters_eq hItem.1.2]
      by_cases hName : name ∈ t.functionNames
      · rw [if_pos (isFunction_iff.mpr hName), if_pos hName]
        rfl
      · rw [if_neg (fun h => hName (isFunction_iff.mp h)), if_neg hName, List.nil_append]
        cases hParams : repeatedParameters name [] (namesAs .parameter params) with
        | cons fault others => simp [hParams, okUnless]
        | nil =>
          rw [List.map_nil, hParams, List.nil_append]
          simp only [okUnless.eq_1, ih hRest]
          simp [functionNames, parameterScopes, Scope.declareAll_name]
    | _ => exact ih hRest

theorem addGlobals_eq (h : ∀ x ∈ names, x.isFreeName = true) :
    addGlobals s names = .ok (s.declareAll (namesAs .globalName names)) := by
  induction names generalizing s with
  | nil => rfl
  | cons x rest ih =>
    obtain ⟨hx, hRest⟩ := List.forall_mem_cons.mp h
    obtain ⟨span, name, rfl⟩ := exists_eq_ident hx
    exact ih hRest

theorem addNode_eq (h : n.IsPart) : addNode s n = .ok (s.declareAll (declares n)) := by
  cases n with
  | assign span lhs rhs =>
    rw [addNode, declares]
    cases rootName? lhs <;> rfl
  | globals span names => exact addGlobals_eq (isPart_globals_iff.mp h)
  | _ => rfl

theorem addNodes_eq {ns : List Node} (h : ∀ n ∈ ns, n.IsPart) :
    addNodes s ns = .ok (s.declareAll (ns.flatMap declares)) := by
  induction ns generalizing s with
  | nil => rfl
  | cons n rest ih =>
    obtain ⟨hn, hRest⟩ := List.forall_mem_cons.mp h
    rw [addNodes, addNode_eq hn]
    simp only [ih hRest, Scope.declareAll_append, List.flatMap_cons]

theorem collect_eq {r : Region} (hs : t.scope? r = some s) (hn : n.isStatement = true) :
    t.collect r n = .ok (t.setScope r (s.declareAll (declaredBy n))) := by
  rw [collect, hs]
  simp only [addNodes_eq (isPart_of_mem_walk (isItem_of_isStatement hn))]
  rfl

def bodyDeclared (name : String) : List Node → List Symbol
  | [] => []
  | .func _ other _ body :: rest =>
    (if other = name then declaredBy body else []) ++ bodyDeclared name rest
  | _ :: rest => bodyDeclared name rest

theorem setScope_function (hNodup : t.functionNames.Nodup) (hs : t.functionScope? name = some s)
    (f : Scope → Scope) :
    t.setScope (.function name) (f s) =
      { t with functions := t.functions.map fun s => if s.name = name then f s else s } := by
  have hMem := List.mem_of_find?_eq_some hs
  have hName := name_of_functionScope? hs
  simp only [setScope, mk.injEq, true_and]
  apply List.map_congr_left
  intro u hu
  by_cases hSame : u.name = name
  · have hEq : u = s := List.inj_on_of_nodup_map hNodup hu hMem (hSame.trans hName.symm)
    simp [hEq, hName]
  · simp [hSame]

theorem collectItems_eq (h : ∀ n ∈ items, n.isItem = true) (hNodup : t.functionNames.Nodup)
    (hThere : ∀ x ∈ declaredFunctions items, x ∈ t.functionNames) :
    collectItems t items = .ok
      { top := t.top.declareAll (topDeclared items)
        functions := t.functions.map fun s => s.declareAll (bodyDeclared s.name items) } := by
  induction items generalizing t with
  | nil => simp [collectItems, topDeclared, bodyDeclared, Scope.declareAll]
  | cons item rest ih =>
    obtain ⟨hItem, hRest⟩ := List.forall_mem_cons.mp h
    cases item with
    | func span name params body =>
      simp only [isItem, Bool.and_eq_true] at hItem
      obtain ⟨hName, hOthers⟩ := List.forall_mem_cons.mp hThere
      obtain ⟨s, hs⟩ := Option.isSome_iff_exists.mp (functionScope?_isSome_iff.mpr hName)
      have hNames : (t.setScope (.function name) (s.declareAll (declaredBy body))).functionNames =
          t.functionNames :=
        functionNames_setScope t ((s.declareAll_name _).trans (name_of_functionScope? hs))
      have hStep := collect_eq (r := .function name) hs hItem.2
      simp only [collectItems, hStep]
      rw [ih hRest (by rwa [hNames]) (by rwa [hNames]),
        setScope_function hNodup hs (·.declareAll (declaredBy body))]
      simp only [topDeclared, bodyDeclared, List.map_map]
      congr 2
      apply List.map_congr_left
      intro u _
      by_cases hSame : u.name = name
      · simp [hSame, Scope.declareAll_name, Scope.declareAll_append]
      · simp [hSame, Ne.symm hSame]
    | absent => cases hItem
    | _ =>
      have hStep := collect_eq (t := t) (r := .top) rfl hItem
      simp only [collectItems, hStep, topDeclared, bodyDeclared, ← Scope.declareAll_append]
      exact ih hRest hNodup hThere

theorem bodyDeclared_eq (hNodup : (declaredFunctions items).Nodup)
    (h : .func span name params body ∈ items) : bodyDeclared name items = declaredBy body := by
  have hNone : ∀ {ns : List Node}, name ∉ declaredFunctions ns → bodyDeclared name ns = [] := by
    intro ns hns
    induction ns with
    | nil => rfl
    | cons n rest ih =>
      cases n with
      | func place other params body =>
        rw [declaredFunctions, List.mem_cons, not_or] at hns
        rw [bodyDeclared, if_neg (Ne.symm hns.1), ih hns.2, List.append_nil]
      | _ => exact ih hns
  induction items with
  | nil => cases h
  | cons item rest ih =>
    rcases List.mem_cons.mp h with rfl | hRest
    · rw [bodyDeclared, if_pos rfl, hNone (List.nodup_cons.mp hNodup).1, List.append_nil]
    · cases item with
      | func place other params body =>
        obtain ⟨hOther, hOthers⟩ := List.nodup_cons.mp hNodup
        have hName : other ≠ name := fun h => hOther (h ▸ mem_declaredFunctions hRest)
        rw [bodyDeclared, if_neg hName]
        exact ih hOthers hRest
      | _ => exact ih hNodup hRest

theorem functionNames_parameterScopes (items : List Node) :
    (parameterScopes items).map Scope.name = declaredFunctions items := by
  induction items with
  | nil => rfl
  | cons item rest ih =>
    cases item with
    | func span name params body =>
      rw [parameterScopes, List.map_cons, Scope.declareAll_name, ih, declaredFunctions]
    | _ => exact ih

theorem map_parameterScopes {f : String → List Symbol}
    (h : ∀ span name params body, .func span name params body ∈ items → f name = declaredBy body) :
    (parameterScopes items).map (fun s => s.declareAll (f s.name)) = functionScopes items := by
  induction items with
  | nil => rfl
  | cons item rest ih =>
    have hRest := ih fun span name params body hMem =>
      h span name params body (List.mem_cons_of_mem item hMem)
    cases item with
    | func span name params body =>
      rw [parameterScopes, List.map_cons, hRest, functionScopes, Scope.declareAll_name,
        h span name params body List.mem_cons_self, Scope.declareAll_append, Scope.declareAll_empty]
    | _ => exact hRest

theorem build_eq {root : Node} (h : ∀ n ∈ itemsOf root, n.isItem = true) :
    build root = okUnless (repeatedDeclarations [] (itemsOf root)) (recorded (itemsOf root)) := by
  have hEmpty : functionNames {} = [] := rfl
  rw [build, addFunctions_eq h, hEmpty]
  cases hFaults : repeatedDeclarations [] (itemsOf root) with
  | cons fault others => rfl
  | nil =>
    have hNodup := (repeatedDeclarations_eq_nil_iff.mp hFaults).1.1
    have hNames : functionNames { functions := parameterScopes (itemsOf root) } =
        declaredFunctions (itemsOf root) := functionNames_parameterScopes _
    change collectItems { functions := parameterScopes (itemsOf root) } (itemsOf root) = .ok _
    rw [collectItems_eq h (by rwa [hNames]) (by rw [hNames]; exact fun _ => id),
      map_parameterScopes fun _ _ _ _ => bodyDeclared_eq hNodup, Scope.declareAll_empty]
    rfl

theorem build_ends {root : Node} (h : ∀ n ∈ itemsOf root, n.isItem = true) :
    (∃ t, build root = .ok t) ∨ ∃ span problem, build root = .error (.rejected span problem) := by
  rw [build_eq h]
  cases repeatedDeclarations [] (itemsOf root) with
  | nil => exact .inl ⟨_, rfl⟩
  | cons fault others => exact .inr ⟨fault.1, fault.2, rfl⟩

/-- Building the scopes of a parsed program fails at the first declaration that repeats another, and
otherwise records what the program declares. No declaration repeats another when the functions have
different names and so have the parameters of each function. -/
theorem build_eq_okUnless_repeated {settings : Settings} {tokens : List Token} {p : Syntax.Parsed}
    {root : Node} (hParse : Syntax.parse? settings tokens = some p) (hRoot : p.result = .ok root) :
    build root = okUnless (repeatedDeclarations [] (itemsOf root)) (recorded (itemsOf root)) ∧
    (repeatedDeclarations [] (itemsOf root) = [] ↔
      (declaredFunctions (itemsOf root)).Nodup ∧
      ∀ span name params body, .func span name params body ∈ itemsOf root →
        ((namesAs .parameter params).map Symbol.name).Nodup) := by
  have hProgram := Syntax.isProgram_of_parse hParse hRoot
  refine ⟨build_eq (Syntax.Flattening.isItem_of_isProgram hProgram), ?_⟩
  rw [repeatedDeclarations_eq_nil_iff]
  simp

/-- A name that a function declares global is assigned there later, which changes nothing. -/
theorem build_eq_okUnless_repeated_variedSource :
    ∃ p root, Syntax.parse? {} (Scanner.start {} 0 Syntax.variedSource).tokens.1 = some p ∧
      p.result = .ok root ∧ build root = .ok (recorded (itemsOf root)) ∧
      (functionScopes (itemsOf root)).map (fun s => s.symbols.map fun x => (x.name, x.kind)) =
        [[("g", .globalName), ("b", .parameter), ("a", .parameter)]] := by
  have hEval : (Syntax.parse? {} (Scanner.start {} 0 Syntax.variedSource).tokens.1).map (fun p =>
      p.result.toOption.map fun root => ((repeatedDeclarations [] (itemsOf root)).length,
        (functionScopes (itemsOf root)).map fun s => s.symbols.map fun x => (x.name, x.kind))) =
      some (some (0, [[("g", .globalName), ("b", .parameter), ("a", .parameter)]])) := by
    decide +kernel
  obtain ⟨p, hParse, hScopes⟩ := Option.map_eq_some_iff.mp hEval
  obtain ⟨root, hRoot, hPair⟩ := Option.map_eq_some_iff.mp hScopes
  obtain ⟨hNone, hSymbols⟩ := Prod.mk.inj hPair
  have hBuild := (build_eq_okUnless_repeated hParse (eq_ok_of_toOption hRoot)).1
  rw [List.length_eq_zero_iff.mp hNone] at hBuild
  exact ⟨p, root, hParse, eq_ok_of_toOption hRoot, hBuild, hSymbols⟩

end ScopeTable

end BatchCompiler
