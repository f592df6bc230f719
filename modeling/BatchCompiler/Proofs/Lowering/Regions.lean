import BatchCompiler.Proofs.Compilation.Stages
import BatchCompiler.Proofs.Flattening.Leaves
import BatchCompiler.Proofs.Lowering.Storage

/-!
# The code of the regions

The code of a program is the code of its top level followed by the code of each function. Regions
share what both of them name, since all calls pass the same frame number, and nothing else.
-/

namespace BatchCompiler.Lowering

open Target Meaning

variable {table flatTable : ScopeTable} {root flat : Node} {l : Location} {ns items : List Node}
  {P : Region → Leaf → Prop}

variable {regions : List (Region × List Stmt)} {s s' : Progress} {r : Region} {code : List Stmt}
  {u : Use}

def lowerEach (c : Context) : List Node → Lower (List (Region × List Stmt))
  | [] => pure []
  | .func span name params body :: rest => do
    let first ← lowerFunction c span name params body
    let rest ← lowerEach c rest
    pure ((.function name, first) :: rest)
  | _ :: rest => lowerEach c rest

def lowerRegions (c : Context) (items : List Node) : Lower (List (Region × List Stmt)) := do
  if items.any Node.isAbsent then throw (.crash .absentPart)
  let stmts ← lowerStatements c false (items.filter fun n => !n.isFunc)
  let funcs ← lowerEach c (items.filter Node.isFunc)
  pure ((.top, stmts) :: funcs)

def joined (regions : List (Region × List Stmt)) : List Stmt :=
  regions.flatMap Prod.snd

theorem lowerFunctions_eq (c : Context) (ns : List Node) :
    lowerFunctions c ns = joined <$> lowerEach c ns := by
  induction ns with
  | nil =>
    simp only [lowerFunctions, lowerEach, map_pure]
    rfl
  | cons n rest ih =>
    cases n with
    | func span name params body =>
      simp only [lowerFunctions, lowerEach, ih, map_bind, map_pure, bind_map_left]
      rfl
    | _ => simpa only [lowerFunctions, lowerEach] using ih

theorem lowerItems_eq (c : Context) (items : List Node) :
    lowerItems c items = (fun regions => setup ++ joined regions) <$> lowerRegions c items := by
  unfold lowerItems lowerRegions
  split
  · rfl
  · simp only [lowerFunctions_eq, map_bind, map_pure, bind_map_left]
    refine bind_congr fun stmts => bind_congr fun funcs => ?_
    rw [List.append_assoc]
    rfl

/-- `LoweredEach c ns k regions k'` says that `regions` is the code of the functions `ns`, with their
loops numbered from `k` up to but not including `k'`. -/
inductive LoweredEach (c : Context) : List Node → Nat → List (Region × List Stmt) → Nat → Prop where
  | nil {k : Nat} : LoweredEach c [] k [] k
  | cons {span : Span} {name : String} {params ns : List Node} {body : Node} {scope : Scope}
    {stmts framed : List Stmt} {names : List String} {regions : List (Region × List Stmt)}
    {k k₁ k' : Nat} (hScope : c.table.functionScope? name = some scope)
    (hBody : Lowered { c with scope := scope.name, function := name } [body] k stmts k₁)
    (hFrame : inFrame stmts = .ok framed) (hNames : parameterNames params = .ok names)
    (h : LoweredEach c ns k₁ regions k') :
    LoweredEach c (.func span name params body :: ns) k
      ((.function name, assemble name names framed) :: regions) k'

theorem loweredEach_of_run {c : Context} (hns : ∀ n ∈ ns, n.isFunc = true)
    (h : (lowerEach c ns).run s = (.ok regions, s')) :
    LoweredEach c ns s.labels regions s'.labels := by
  induction ns generalizing s regions with
  | nil =>
    obtain ⟨rfl, rfl⟩ := of_run_pure h
    exact .nil
  | cons n rest ih =>
    obtain ⟨hn, hRest⟩ := List.forall_mem_cons.mp hns
    cases n with
    | func span name params body =>
      obtain ⟨first, s₁, hFirst, h₁⟩ := exists_of_run_bind h
      obtain ⟨others, s₂, hOthers, h₂⟩ := exists_of_run_bind h₁
      obtain ⟨rfl, rfl⟩ := of_run_pure h₂
      unfold lowerFunction at hFirst
      split at hFirst
      · cases hFirst
      next scope hScope =>
      obtain ⟨stmts, s₃, hStmts, h₃⟩ := exists_of_run_bind hFirst
      split at h₃
      · cases h₃
      · next framed hFrame =>
        obtain ⟨names, s₄, hNames, h₄⟩ := exists_of_run_bind h₃
        obtain ⟨hParams, rfl⟩ := of_run_liftLower hNames
        obtain ⟨rfl, rfl⟩ := of_run_pure h₄
        have hBody := (loweredBefore_of_lowerStatement hStmts).alone
        exact .cons hScope hBody hFrame hParams (ih hRest hOthers)
    | _ => cases hn

theorem exists_of_lowerRegions {c : Context} (h : (lowerRegions c items).run s = (.ok regions, s')) :
    ∃ top funcs k, regions = (.top, top) :: funcs ∧
      Lowered c (items.filter fun n => !n.isFunc) s.labels top k ∧
      LoweredEach c (items.filter Node.isFunc) k funcs s'.labels := by
  unfold lowerRegions at h
  split at h
  · cases h
  · obtain ⟨stmts, s₁, hStmts, h₁⟩ := exists_of_run_bind h
    obtain ⟨funcs, s₂, hFuncs, h₂⟩ := exists_of_run_bind h₁
    obtain ⟨rfl, rfl⟩ := of_run_pure h₂
    have hTop := lowered_of_lowerStatements
      (fun n _ s T s' hRun => loweredBefore_of_lowerStatement hRun) hStmts
    exact ⟨stmts, funcs, _, rfl, hTop, loweredEach_of_run (fun n hn => (List.mem_filter.mp hn).2) hFuncs⟩

structure Owns (P : Region → Leaf → Prop) (r : Region) (code : List Stmt) : Prop where
  keepsTo : KeepsTo (P r ∘ Leaf.name) (usesOf code)
  framed : r ≠ .top → Framed (usesOf code)

section

variable {c : Context} {P : Region → Leaf → Prop}

theorem names_of_parameterNames {Q : Leaf → Prop} {params : List Node} {names : List String}
    (hParams : ∀ n ∈ params, n.EveryLeaf Q) (h : parameterNames params = .ok names) :
    ∀ x ∈ names, Q (.name x) := by
  induction params generalizing names with
  | nil =>
    cases h
    exact nofun
  | cons n rest ih =>
    cases n with
    | ident span name =>
      obtain ⟨others, hOthers, h⟩ := exists_of_bind_eq_ok h
      cases h
      intro x hx
      rcases List.mem_cons.mp hx with rfl | hx
      · exact Node.everyLeaf_ident_iff.mp (hParams _ List.mem_cons_self)
      · exact ih (fun y hy => hParams y (List.mem_cons_of_mem _ hy)) hOthers x hx
    | _ => cases h

theorem usesOf_assemble (name : String) (params : List String) (body : List Stmt) :
    usesOf (assemble name params body) =
      usesOf (parameterCopies firstArgumentSlot params) ++ usesOf body := by
  have hReturn : usesOf (if endsWithReturn body then [] else [Stmt.jump endOfFile]) = [] := by
    split <;> rfl
  simp only [assemble, usesOf_append, hReturn, usesOf, Stmt.uses, List.nil_append, List.append_nil]

theorem LoweredEach.owns {regions : List (Region × List Stmt)} {k k' : Nat}
    (h : LoweredEach c ns k regions k') (hns : ∀ n ∈ ns, n.EveryLeaf (P n.region)) :
    (∀ x ∈ regions, Owns P x.1 x.2) ∧
      regions.map Prod.fst = (ScopeTable.declaredFunctions ns).map .function := by
  induction h with
  | nil => exact ⟨List.forall_mem_nil _, rfl⟩
  | @cons span name params ns body scope stmts framed names regions k k₁ k' _ hBody hFrame hNames
      _ ih =>
    obtain ⟨hn, hRest⟩ := List.forall_mem_cons.mp hns
    obtain ⟨_, hParams, hLeaves⟩ := Node.everyLeaf_func_iff.mp hn
    obtain ⟨hOwns, hRegions⟩ := ih hRest
    have hKeeps := hBody.keepsTo (P := P (.function name)) (List.forall_mem_singleton.mpr hLeaves)
    obtain ⟨hBodyKeeps, hBodyFramed⟩ := hKeeps.moved
    rw [← usesOf_framed, ← eq_framed stmts framed hFrame] at hBodyKeeps hBodyFramed
    obtain ⟨hCopies, hCopiesFramed⟩ := keepsTo_parameterCopies firstArgumentSlot
      (names_of_parameterNames hParams hNames)
    refine ⟨List.forall_mem_cons.mpr ⟨⟨?_, fun _ => ?_⟩, hOwns⟩, ?_⟩
    · rw [usesOf_assemble]
      exact keepsTo_append hCopies hBodyKeeps
    · rw [usesOf_assemble]
      exact hCopiesFramed.append hBodyFramed
    · rw [List.map_cons, hRegions]
      rfl

theorem declaredFunctions_filter (items : List Node) :
    ScopeTable.declaredFunctions (items.filter Node.isFunc) =
      ScopeTable.declaredFunctions items := by
  induction items with
  | nil => rfl
  | cons n rest ih =>
    cases n with
    | func span name params body => exact congrArg (name :: ·) ih
    | _ => exact ih

theorem owns_of_lowerRegions {regions : List (Region × List Stmt)} {s s' : Progress}
    (hItems : ∀ n ∈ items, n.EveryLeaf (P n.region))
    (h : (lowerRegions c items).run s = (.ok regions, s')) :
    (∀ x ∈ regions, Owns P x.1 x.2) ∧
      regions.map Prod.fst = .top :: (ScopeTable.declaredFunctions items).map .function := by
  obtain ⟨top, funcs, k, rfl, hTop, hFuncs⟩ := exists_of_lowerRegions h
  have hTopItems : ∀ n ∈ items.filter fun n => !n.isFunc, n.EveryLeaf (P .top) := by
    intro n hn
    obtain ⟨hMem, hNotFunc⟩ := List.mem_filter.mp hn
    have hNames := hItems n hMem
    cases n with
    | func => cases hNotFunc
    | _ => exact hNames
  obtain ⟨hOwns, hRegions⟩ := hFuncs.owns fun n hn => hItems n (List.mem_filter.mp hn).1
  refine ⟨List.forall_mem_cons.mpr ⟨?_, hOwns⟩, ?_⟩
  · exact ⟨hTop.keepsTo hTopItems, fun hNotTop => absurd rfl hNotTop⟩
  · rw [List.map_cons, hRegions, declaredFunctions_filter]

end

def regions? (settings : Settings) (file : Int) (source : List Char) :
    Option (List (Region × List Stmt)) := do
  let parsed ← Syntax.parse? settings (Scanner.start settings file source).tokens.1
  let root ← parsed.result.toOption
  let table ← (ScopeTable.build root).toOption
  let (flat, table) ← (Stage.flatten? parsed.settings table root).toOption
  ((lowerRegions { settings := parsed.settings, table := table }
    (ScopeTable.itemsOf flat)).run {}).1.toOption

section

variable {settings : Settings} {file : Int} {source : List Char}

theorem exists_run_of_lower_eq_ok {settings : Settings} {table : ScopeTable} {root : Node}
    {p : Program} (h : (lower settings table root).1 = .ok p) :
    ∃ regions s, (lowerRegions { settings := settings, table := table }
      (ScopeTable.itemsOf root)).run {} = (.ok regions, s) ∧ p = setup ++ joined regions := by
  obtain ⟨s, hRun⟩ := exists_run_of_lower h
  rw [lowerItems_eq] at hRun
  obtain ⟨regions, s₁, hRegions, hPure⟩ := exists_of_run_bind hRun
  obtain ⟨hProgram, _⟩ := of_run_pure hPure
  exact ⟨regions, s₁, hRegions, hProgram⟩

theorem exists_run_lowerRegions (b : Compiled settings file source) :
    ∃ regions s, (lowerRegions { settings := b.parsed.settings, table := b.flatTable }
      (ScopeTable.itemsOf b.flat)).run {} = (.ok regions, s) ∧
      b.program = setup ++ joined regions ∧ regions? settings file source = some regions := by
  obtain ⟨regions, s, hRegions, hProgram⟩ := exists_run_of_lower_eq_ok b.lower_eq
  refine ⟨regions, s, hRegions, hProgram, ?_⟩
  simp only [regions?, b.tokens_eq, b.parse_eq, b.result_eq, b.build_eq, b.flatten_eq, hRegions,
    Option.bind_eq_bind, Option.bind_some, Except.toOption]

end

section

variable {settings : Settings} (h : Stage.flatten? settings table root = .ok (flat, flatTable))

include h

theorem kept_of_flatten? (hTemporary : ∀ r k, P r (.name (Syntax.Flattening.temporaryName k)))
    (hRoot : ∀ n ∈ ScopeTable.itemsOf root, n.EveryLeaf (P n.region)) :
    Syntax.Flattening.KeepsRegions P table flatTable root flat := by
  unfold Stage.flatten? at h
  split at h
  · exact Syntax.Flattening.kept_of_flatten hTemporary hRoot h
  · cases h
    exact ⟨hRoot, rfl, rfl, rfl, rfl⟩

theorem everyLeaf_of_flatten? (hTemporary : ∀ r k, P r (.name (Syntax.Flattening.temporaryName k)))
    (hRoot : ∀ n ∈ ScopeTable.itemsOf root, n.EveryLeaf (P n.region)) :
    (∀ n ∈ ScopeTable.itemsOf flat, n.EveryLeaf (P n.region)) ∧
    ScopeTable.declaredFunctions (ScopeTable.itemsOf flat) =
      ScopeTable.declaredFunctions (ScopeTable.itemsOf root) :=
  have hKept := kept_of_flatten? h hTemporary hRoot
  ⟨hKept.leaves, hKept.declared⟩

theorem functionNames_of_flatten? : flatTable.functionNames = table.functionNames :=
  (kept_of_flatten? h (P := fun _ _ => True) (fun _ _ => trivial) fun _ _ _ _ => trivial).functionNames

end

end BatchCompiler.Lowering
