import BatchCompiler.Proofs.Flattening.Numbering

/-!
# Flattening interleaved items

The statements of a program are flattened as if there were no functions among them. A function is
flattened as if it stood alone, but its temporaries are counted from another number. So of two
programs with the same statements and the same functions, interleaved differently, the flat statements
are the same and the flat functions differ in the names of their temporaries.
-/

namespace BatchCompiler.Syntax.Flattening

open Node Lowering ScopeTable

variable {n root : Node} {ns flat : List Node}

def FlattensTo (n flat : Node) : Prop :=
  ∃ span name params body body' k s s', n = .func span name params body ∧
    flat = .func span name params body' ∧ s.region = .function name ∧ s.before = [] ∧
    s.table.Numbered (.function name) k k ∧ (functionBody body).run s = .ok (body', s')

def SameButTemporaries (n n' : Node) : Prop :=
  ∃ span name params body rename, RenamesTemporaries rename ∧ (∀ x ∈ params, x.isFreeName = true) ∧
    n = .func span name params body ∧ n' = .func span name params (body.recast (.ofNames rename))

theorem fixes_free {rename : String → String} (h : RenamesTemporaries rename) (x : String)
    (hx : Text.startsWith Parser.reservedLead x = false) : rename x = x := by
  have hSplit : temporaryLead = Parser.reservedLead ++ "t" := rfl
  refine h.fixes x (Bool.eq_false_iff.mpr fun hLead => ?_)
  rw [hSplit] at hLead
  have hReserved := Text.startsWith_of_append hLead
  rw [hx] at hReserved
  cases hReserved

theorem FlattensTo.sameButTemporaries {flat flat' : Node} (hn : n.isItem = true)
    (h : FlattensTo n flat) (h' : FlattensTo n flat') : SameButTemporaries flat flat' := by
  obtain ⟨span, name, params, body, body₁, k₁, s₁, s₁', rfl, rfl, hRegion₁, hBefore₁, hTable₁,
    hRun₁⟩ := h
  obtain ⟨_, _, _, _, body₂, k₂, s₂, s₂', hSame, rfl, hRegion₂, hBefore₂, hTable₂, hRun₂⟩ := h'
  cases hSame
  simp only [isItem, Bool.and_eq_true, List.all_eq_true] at hn
  have hRename := renamesTemporaries_shift k₁ k₂
  have hBody : body.recast (.ofNames (shift k₁ k₂)) = body :=
    recast_of_isStatement (fixes_free hRename) hn.2
  have hRelated : Related (counting (.function name) k₁ k₂) s₁ s₂ := by
    refine ⟨hRegion₂.trans hRegion₁.symm, ⟨hRegion₁, 0, hTable₁, hTable₂⟩, ?_⟩
    rw [hBefore₁, hBefore₂]
    rfl
  obtain ⟨u, hRun, _⟩ := (commutes_functionBody body).exists_run hRelated hRun₁
  rw [hBody, hRun₂] at hRun
  cases hRun
  exact ⟨span, name, params, body₁, _, hRename, hn.1.2, rfl, rfl⟩

/-- Between two items: nothing waits, the top level has `k` temporaries, and no function that is
still to come has any. -/
structure Standing (ns : List Node) (s : State) (k : Nat) : Prop where
  before : s.before = []
  top : s.table.top.Numbered 0 k
  functions : ∀ name ∈ declaredFunctions ns,
    ∃ scope, s.table.functionScope? name = some scope ∧ scope.Plain

section

variable {s : State} {k : Nat} {rest : List Node}

theorem Standing.statement (hFunc : n.isFunc = false) (hn : n.isStatement = true)
    (h : Standing (n :: rest) s k) {u : State} (hRegion : u.region = .top)
    (hBefore : u.before = []) (hTop : u.table.top = s.table.top) :
    ∃ stmts s₁ k₁ u₁, (Flattening.statement n).run { s with region := .top } = .ok (stmts, s₁) ∧
      (Flattening.statement n).run u = .ok (stmts, u₁) ∧
      s₁.table.functionNames = s.table.functionNames ∧
      (∀ m ∈ stmts, Stands m) ∧ Standing rest s₁ k₁ ∧ u₁.region = .top ∧ u₁.before = [] ∧
      u₁.table.top = s₁.table.top := by
  obtain ⟨stmts, s₁, hRun, hBecomes, hAdds⟩ :=
    exists_becomes (s := { s with region := .top }) hn trivial h.before
  have hBefore₁ : s₁.before = [] := by rw [hAdds.before, List.append_nil, h.before]
  have hRelated : Related (atTopLevel s.table.functions) { s with region := .top } u := by
    refine ⟨hRegion, ⟨rfl, hTop, rfl, k, h.top⟩, ?_⟩
    rw [hBefore, h.before]
    rfl
  obtain ⟨u₁, hRun₁, hRelated₁⟩ := (commutes_statement n).exists_run hRelated hRun
  obtain ⟨_, hTop₁, hFunctions, k₁, hNumbered⟩ := hRelated₁.table
  rw [recast_ofNames_id, List.map_congr_left fun m _ => m.recast_ofNames_id, List.map_id'] at hRun₁
  refine ⟨stmts, s₁, k₁, u₁, hRun, hRun₁, hAdds.functions,
    hBecomes.stands (List.forall_mem_singleton.mpr hFunc), ?_, hRelated₁.region.trans hAdds.region, ?_,
    hTop₁⟩
  · refine ⟨hBefore₁, hNumbered, fun name hName => ?_⟩
    have hScopes : s₁.table.functionScope? name = s.table.functionScope? name := by
      rw [functionScope?, hFunctions]
      rfl
    rw [← declaredFunctions_cons hFunc rest] at hName
    rw [hScopes]
    exact h.functions name hName
  · rw [hRelated₁.before, hBefore₁]
    rfl

theorem Standing.function {span : Span} {name : String} {params : List Node} {body : Node}
    (hBody : body.isStatement = true) (hNew : name ∉ declaredFunctions rest)
    (h : Standing (.func span name params body :: rest) s k) :
    ∃ body' s₁, (functionBody body).run { s with region := .function name } = .ok (body', s₁) ∧
      FlattensTo (.func span name params body) (.func span name params body') ∧
      s₁.table.functionNames = s.table.functionNames ∧ Standing rest s₁ k ∧
      s₁.table.top = s.table.top := by
  obtain ⟨scope, hScope, hPlain⟩ := h.functions name List.mem_cons_self
  have hHas : name ∈ s.table.functionNames :=
    functionScope?_isSome_iff.mp (Option.isSome_iff_exists.mpr ⟨scope, hScope⟩)
  obtain ⟨stmts, s₁, hRun, -, hAdds⟩ :=
    exists_gathered (s := { s with region := .function name }) hBody hHas h.before
  have hBefore₁ : s₁.before = [] := by rw [hAdds.before, List.append_nil, h.before]
  have hRelated : Related (inFunction name s.table) { s with region := .function name }
      { s with region := .function name } := by
    refine ⟨rfl, ⟨rfl, rfl, rfl, fun _ _ => rfl⟩, ?_⟩
    rw [h.before]
    rfl
  obtain ⟨_, _, hRelated₁⟩ := (commutes_functionBody body).exists_run hRelated hRun
  obtain ⟨_, _, hTop, hOthers⟩ := hRelated₁.table
  refine ⟨_, s₁, hRun, ?_, hAdds.functions, ⟨hBefore₁, hTop ▸ h.top, fun other hOther => ?_⟩, hTop⟩
  · exact ⟨span, name, params, body, _, k, { s with region := .function name }, s₁, rfl, rfl, rfl,
      h.before, numbered_function h.top hScope hPlain, hRun⟩
  · have hNe : other ≠ name := fun hEq => hNew (hEq ▸ hOther)
    rw [hOthers other hNe]
    exact h.functions other (List.mem_cons_of_mem _ hOther)

end

/-- The items of a program and what they become: the statements, from a state `u` with the same top
level, become the flat statements, and each function one of its flat forms. -/
structure Separates (u : State) (ns flat : List Node) : Prop where
  isAbsent : ∀ n ∈ flat, n.isAbsent = false
  statements : ∃ u',
    (Flattening.statements (statementsAmong ns)).run u = .ok (statementsAmong flat, u')
  functions : List.Forall₂ FlattensTo (functionsAmong ns) (functionsAmong flat)

section

variable {u : State} {rest flat : List Node}

theorem Separates.statement {stmts : List Node} {u₁ : State} (h : Separates u₁ rest flat)
    (hFunc : n.isFunc = false) (hRun : (Flattening.statement n).run u = .ok (stmts, u₁))
    (hStands : ∀ m ∈ stmts, Stands m) : Separates u (n :: rest) (stmts ++ flat) := by
  have hTop : statementsAmong stmts = stmts :=
    List.filter_eq_self.mpr fun m hm => by simp [(hStands m hm).isFunc]
  have hNone : functionsAmong stmts = [] :=
    List.filter_eq_nil_iff.mpr fun m hm => by simp [(hStands m hm).isFunc]
  obtain ⟨u', hOthers⟩ := h.statements
  refine ⟨List.forall_mem_append.mpr ⟨fun m hm => (hStands m hm).isAbsent, h.isAbsent⟩, ⟨u', ?_⟩, ?_⟩
  · rw [statementsAmong_cons hFunc, statementsAmong_append, hTop, Flattening.statements,
      run_bind_of_ok hRun, run_bind_of_ok hOthers]
    rfl
  · rw [functionsAmong_cons hFunc, functionsAmong_append, hNone]
    exact h.functions

theorem Separates.function {m : Node} (h : Separates u rest flat) (hFlattens : FlattensTo n m) :
    Separates u (n :: rest) (m :: flat) := by
  have hForms := hFlattens
  obtain ⟨span, name, params, body, body', k, s, s', rfl, rfl, _⟩ := hForms
  refine ⟨List.forall_mem_cons.mpr ⟨rfl, h.isAbsent⟩, h.statements, ?_⟩
  rw [functionsAmong_cons_func rfl, functionsAmong_cons_func rfl]
  exact .cons hFlattens h.functions

end

theorem exists_separates (hItems : ∀ n ∈ ns, n.isItem = true)
    (hNodup : (declaredFunctions ns).Nodup) {s u : State} {k : Nat} (h : Standing ns s k)
    (hRegion : u.region = .top) (hBefore : u.before = []) (hTop : u.table.top = s.table.top) :
    ∃ flat s', (items ns).run s = .ok (flat, s') ∧
      s'.table.functionNames = s.table.functionNames ∧ Separates u ns flat := by
  induction ns generalizing s u k with
  | nil => exact ⟨[], s, rfl, rfl, List.forall_mem_nil _, ⟨u, rfl⟩, .nil⟩
  | cons n rest ih =>
    obtain ⟨hItem, hRest⟩ := List.forall_mem_cons.mp hItems
    cases hFunc : n.isFunc with
    | false =>
      rw [declaredFunctions_cons hFunc] at hNodup
      obtain ⟨stmts, s₁, k₁, u₁, hRun, hRun', hSame, hStands, hStanding, hRegion₁, hBefore₁, hTop₁⟩ :=
        h.statement hFunc (isStatement_of_isItem hFunc hItem) hRegion hBefore hTop
      obtain ⟨flat, s', hRunRest, hSame', hFlat⟩ := ih hRest hNodup hStanding hRegion₁ hBefore₁ hTop₁
      exact ⟨stmts ++ flat, s', run_items_statement hFunc hRun hRunRest, hSame'.trans hSame,
        hFlat.statement hFunc hRun' hStands⟩
    | true =>
      cases n with
      | func span name params body =>
        obtain ⟨hNew, hNodup⟩ := List.nodup_cons.mp hNodup
        simp only [isItem, Bool.and_eq_true] at hItem
        obtain ⟨body', s₁, hRun, hFlattens, hSame, hStanding, hTop₁⟩ := h.function hItem.2 hNew
        obtain ⟨flat, s', hRunRest, hSame', hFlat⟩ :=
          ih hRest hNodup hStanding hRegion hBefore (hTop.trans hTop₁.symm)
        exact ⟨_, s', run_items_func hRun hRunRest, hSame'.trans hSame, hFlat.function hFlattens⟩
      | _ => cases hFunc

theorem forall₂_sameButTemporaries {flat' : List Node} (hItems : ∀ n ∈ ns, n.isItem = true)
    (h : List.Forall₂ FlattensTo ns flat) (h' : List.Forall₂ FlattensTo ns flat') :
    List.Forall₂ SameButTemporaries flat flat' := by
  induction h generalizing flat' with
  | nil =>
    cases h'
    exact .nil
  | cons hFirst _ ih =>
    obtain ⟨hItem, hRest⟩ := List.forall_mem_cons.mp hItems
    cases h' with
    | cons hFirst' hOthers' =>
      exact .cons (hFirst.sameButTemporaries hItem hFirst') (ih hRest hOthers')

theorem standing_of_build {table : ScopeTable} (hItems : ∀ n ∈ itemsOf root, n.isItem = true)
    (hBuild : build root = .ok table)
    (hNames : declaredFunctions ns = declaredFunctions (itemsOf root)) :
    Standing ns { table := table } 0 := by
  have hPlain := plain_build hItems hBuild
  refine ⟨rfl, hPlain.top.numbered 0, fun name hName => ?_⟩
  rw [hNames, ← build_functionNames hBuild] at hName
  obtain ⟨scope, hScope⟩ := Option.isSome_iff_exists.mp (functionScope?_isSome_iff.mpr hName)
  exact ⟨scope, hScope, hPlain.scope (r := .function name) hScope⟩

theorem declaredFunctions_of_flattensTo (h : List.Forall₂ FlattensTo ns flat) :
    declaredFunctions flat = declaredFunctions ns := by
  induction h with
  | nil => rfl
  | cons hFirst _ ih =>
    obtain ⟨span, name, params, body, body', k, s, s', rfl, rfl, _⟩ := hFirst
    rw [declaredFunctions, declaredFunctions, ih]

/-- Flat forms of two programs with the same items: the statements are the same, and the functions
differ in their temporaries only. -/
structure AlikeFlat (names : List String) (flat flat' : List Node) : Prop where
  names : declaredFunctions (functionsAmong flat) = names
  isAbsent : ∀ n ∈ flat, n.isAbsent = false
  isAbsent' : ∀ n ∈ flat', n.isAbsent = false
  statements : statementsAmong flat' = statementsAmong flat
  functions : List.Forall₂ SameButTemporaries (functionsAmong flat) (functionsAmong flat')

/-- Where functions stand among statements changes the numbers of their temporaries only. -/
theorem exists_items_of_sameItems {table : ScopeTable} {ns' : List Node}
    (hItems : ∀ n ∈ itemsOf root, n.isItem = true) (hItems' : ∀ n ∈ ns', n.isItem = true)
    (hSame : SameItems (itemsOf root) ns') (hBuild : build root = .ok table) :
    ∃ flat flat' s s', (items (itemsOf root)).run { table := table } = .ok (flat, s) ∧
      (items ns').run { table := table } = .ok (flat', s') ∧
      s'.table.functionNames = s.table.functionNames ∧
      AlikeFlat (declaredFunctions (itemsOf root)) flat flat' := by
  have hNames : declaredFunctions ns' = declaredFunctions (itemsOf root) := by
    rw [← declaredFunctions_functionsAmong ns', hSame.functions, declaredFunctions_functionsAmong]
  have hNodup := nodup_declared hBuild
  obtain ⟨flat, s, hRun, hFunctions, hFlat⟩ := exists_separates hItems hNodup
    (u := { table := table }) (standing_of_build hItems hBuild rfl) rfl rfl rfl
  obtain ⟨flat', s', hRun', hFunctions', hFlat'⟩ := exists_separates hItems' (hNames ▸ hNodup)
    (u := { table := table }) (standing_of_build hItems hBuild hNames) rfl rfl rfl
  refine ⟨flat, flat', s, s', hRun, hRun', hFunctions'.trans hFunctions.symm, ?_,
    hFlat.isAbsent, hFlat'.isAbsent, ?_, ?_⟩
  · rw [declaredFunctions_of_flattensTo hFlat.functions, declaredFunctions_functionsAmong]
  · obtain ⟨u, hStatements⟩ := hFlat.statements
    obtain ⟨u', hStatements'⟩ := hFlat'.statements
    rw [hSame.statements, hStatements] at hStatements'
    exact (Prod.mk.inj (Except.ok.inj hStatements')).1.symm
  · have hForms := hFlat'.functions
    rw [hSame.functions] at hForms
    exact forall₂_sameButTemporaries (fun n hn => hItems n (List.mem_filter.mp hn).1)
      hFlat.functions hForms

end BatchCompiler.Syntax.Flattening
