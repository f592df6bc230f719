import BatchCompiler.Scope.Declarations

/-!
# Regions of a scope table

Declaring names changes what a scope holds, never which functions there are: the table of a program
has exactly the functions that the program declares.
-/

namespace BatchCompiler

theorem Scope.declare_name (s : Scope) (x : Symbol) : (s.declare x).2.name = s.name := by
  unfold Scope.declare
  split <;> rfl

namespace ScopeTable

variable {t t' : ScopeTable} {name : String} {s s' : Scope} {r : Region} {n : Node}
  {items : List Node}

def functionNames (t : ScopeTable) : List String :=
  t.functions.map Scope.name

theorem name_of_functionScope? (h : t.functionScope? name = some s) : s.name = name := by
  have hs := List.find?_some h
  simpa using hs

theorem functionScope?_isSome_iff :
    (t.functionScope? name).isSome = true ↔ name ∈ t.functionNames := by
  rw [functionScope?, List.find?_isSome, functionNames, List.mem_map]
  simp

def Fits : Region → Scope → Prop
  | .top, _ => True
  | .function name, s => s.name = name

theorem functionNames_setScope (t : ScopeTable) (h : Fits r s) :
    (t.setScope r s).functionNames = t.functionNames := by
  cases r with
  | top => rfl
  | function name =>
    change s.name = name at h
    simp only [setScope, functionNames, List.map_map]
    apply List.map_congr_left
    intro f _
    by_cases hf : f.name = name
    · simp [hf, h]
    · simp [hf]

theorem find?_map_replace {fs : List Scope} (hName : s.name = name)
    (hSome : (fs.find? fun f => f.name == name).isSome = true) :
    (fs.map fun f => if f.name == name then s else f).find? (fun f => f.name == name) = some s := by
  induction fs with
  | nil => cases hSome
  | cons f rest ih =>
    by_cases hf : f.name = name
    · simp [hf, hName]
    · have hBeq : (f.name == name) = false := by simpa using hf
      rw [List.find?_cons, hBeq] at hSome
      rw [List.map_cons, hBeq, List.find?_cons]
      simpa [hBeq] using ih hSome

theorem scope?_setScope (hFits : Fits r s) (hSome : (t.scope? r).isSome = true) :
    (t.setScope r s).scope? r = some s := by
  cases r with
  | top => rfl
  | function name => exact find?_map_replace hFits hSome

theorem counter_le_freeNumber (stem : String) (taken : List String) (counter : Nat) :
    counter ≤ Scope.freeNumber stem taken counter :=
  Nat.le_add_right _ _

/-- A fresh name is numbered at least as high as the counter of its scope, which then moves past
it. -/
theorem exists_fresh? (h : t.scope? r = some s) (stem : String) :
    ∃ n t' s', t.fresh? r stem = some (stem ++ Number.natText n, t') ∧ s.counter ≤ n ∧
      t'.scope? r = some s' ∧ s'.counter = n + 1 ∧ t'.functionNames = t.functionNames := by
  have hFresh : t.fresh? r stem =
      some ((s.fresh (t.outer r) stem).1, t.setScope r (s.fresh (t.outer r) stem).2) := by
    simp [fresh?, h]
  have hFits : Fits r (s.fresh (t.outer r) stem).2 := by
    cases r with
    | top => trivial
    | function name =>
      change (s.declare _).2.name = name
      rw [Scope.declare_name]
      exact name_of_functionScope? h
  refine ⟨_, _, (s.fresh (t.outer r) stem).2, hFresh, counter_le_freeNumber _ _ _, ?_, rfl, ?_⟩
  · exact scope?_setScope hFits (by simp [h])
  · exact functionNames_setScope t hFits

theorem addParameters_name {function : String} {params : List Node}
    (h : addParameters function s params = .ok s') : s'.name = s.name := by
  induction params generalizing s with
  | nil =>
    cases h
    rfl
  | cons p rest ih =>
    cases p with
    | ident span name =>
      simp only [addParameters] at h
      split at h
      · cases h
      · rw [ih h, Scope.declare_name]
    | _ => cases h

def declaredFunctions : List Node → List String
  | [] => []
  | .func _ name _ _ :: rest => name :: declaredFunctions rest
  | _ :: rest => declaredFunctions rest

theorem declaredFunctions_cons (hn : n.isFunc = false) (rest : List Node) :
    declaredFunctions (n :: rest) = declaredFunctions rest := by
  cases n with
  | func => cases hn
  | _ => rfl

theorem addFunctions_functionNames (h : addFunctions t items = .ok t') :
    t'.functionNames = t.functionNames ++ declaredFunctions items := by
  induction items generalizing t with
  | nil =>
    cases h
    simp [declaredFunctions]
  | cons item rest ih =>
    cases item with
    | func span name params body =>
      simp only [addFunctions] at h
      split at h
      · cases h
      · split at h
        · cases h
        · next s hs =>
          have hName : s.name = name := addParameters_name hs
          rw [ih h]
          simp [functionNames, declaredFunctions, hName]
    | absent => cases h
    | _ => exact ih h

theorem addFunctions_nodup (h : addFunctions t items = .ok t') (ht : t.functionNames.Nodup) :
    t'.functionNames.Nodup := by
  induction items generalizing t with
  | nil =>
    cases h
    exact ht
  | cons item rest ih =>
    cases item with
    | func span name params body =>
      simp only [addFunctions] at h
      split at h
      · cases h
      · next hNew =>
        split at h
        · cases h
        · next s hs =>
          have hName : s.name = name := addParameters_name hs
          have hFresh : name ∉ t.functionNames := fun hMem =>
            hNew (functionScope?_isSome_iff.mpr hMem)
          apply ih h
          rw [functionNames, List.map_append, List.map_singleton, hName, List.nodup_append]
          refine ⟨ht, by simp, fun x hx y hy hxy => hFresh ?_⟩
          rw [← List.mem_singleton.mp hy, ← hxy]
          exact hx
    | absent => cases h
    | _ => exact ih h ht

theorem addGlobals_name {names : List Node} (h : addGlobals s names = .ok s') :
    s'.name = s.name := by
  induction names generalizing s with
  | nil =>
    cases h
    rfl
  | cons n rest ih =>
    cases n with
    | ident span name =>
      rw [ih h, Scope.declare_name]
    | _ => cases h

theorem addNode_name (h : addNode s n = .ok s') : s'.name = s.name := by
  unfold addNode at h
  split at h
  · split at h
    · cases h
      exact Scope.declare_name _ _
    · cases h
      rfl
  · exact addGlobals_name h
  · cases h
    rfl

theorem addNodes_name {ns : List Node} (h : addNodes s ns = .ok s') : s'.name = s.name := by
  induction ns generalizing s with
  | nil =>
    cases h
    rfl
  | cons n rest ih =>
    simp only [addNodes] at h
    split at h
    · cases h
    · next s₁ hs₁ => rw [ih h, addNode_name hs₁]

theorem collect_functionNames (h : t.collect r n = .ok t') :
    t'.functionNames = t.functionNames := by
  unfold collect at h
  split at h
  · cases h
  · next s hs =>
    split at h
    · cases h
    · next s' hs' =>
      cases h
      apply functionNames_setScope
      cases r with
      | top => trivial
      | function name => exact (addNodes_name hs').trans (name_of_functionScope? hs)

theorem collectItems_functionNames (h : collectItems t items = .ok t') :
    t'.functionNames = t.functionNames := by
  induction items generalizing t with
  | nil =>
    cases h
    rfl
  | cons item rest ih =>
    simp only [collectItems] at h
    split at h
    · cases h
    · next t₁ hStep =>
      rw [ih h]
      split at hStep
      · exact collect_functionNames hStep
      · exact collect_functionNames hStep

theorem build_functionNames {root : Node} (h : build root = .ok t) :
    t.functionNames = declaredFunctions (itemsOf root) := by
  unfold build at h
  split at h
  · cases h
  · next t₁ hFunctions =>
    rw [collectItems_functionNames h, addFunctions_functionNames hFunctions]
    rfl

theorem mem_functionNames_of_build {root : Node} (h : build root = .ok t) :
    ∀ name ∈ declaredFunctions (itemsOf root), name ∈ t.functionNames := by
  rw [build_functionNames h]
  exact fun _ hName => hName

theorem nodup_declared {root : Node} (h : build root = .ok t) :
    (declaredFunctions (itemsOf root)).Nodup := by
  rw [← build_functionNames h]
  unfold build at h
  split at h
  · cases h
  · next t₁ hFunctions =>
    rw [collectItems_functionNames h]
    exact addFunctions_nodup hFunctions List.nodup_nil

end ScopeTable

end BatchCompiler
