import BatchCompiler.Proofs.Flattening.Rules

/-!
# Flattening succeeds

Every program that parsing can produce is flattened, if the table has a scope for each of its
functions.
-/

namespace BatchCompiler.Syntax.Flattening

def HasScope (table : ScopeTable) : Region → Prop
  | .top => True
  | .function name => name ∈ table.functionNames

theorem exists_scope?_of_hasScope {table : ScopeTable} {r : Region} (h : HasScope table r) :
    ∃ scope, table.scope? r = some scope := by
  cases r with
  | top => exact ⟨_, rfl⟩
  | function name =>
    exact Option.isSome_iff_exists.mp (ScopeTable.functionScope?_isSome_iff.mpr h)

def Runs {α : Type} (m : Flat α) : Prop :=
  ∀ s, HasScope s.table s.region → ∃ a s', m.run s = .ok (a, s') ∧ HasScope s'.table s'.region

section

variable {α β : Type} {m : Flat α}

theorem runs_pure (a : α) : Runs (pure a) :=
  fun s hScope => ⟨a, s, rfl, hScope⟩

theorem Runs.bind {k : α → Flat β} (hm : Runs m) (hk : ∀ a, Runs (k a)) : Runs (m >>= k) := by
  intro s hScope
  obtain ⟨a, s₁, hRun, hScope₁⟩ := hm s hScope
  obtain ⟨b, s₂, hRun₂, hScope₂⟩ := hk a s₁ hScope₁
  exact ⟨b, s₂, by rw [run_bind_of_ok hRun, hRun₂], hScope₂⟩

theorem runs_atTop {k : Bool → Flat α} (h : ∀ top, Runs (k top)) : Runs (atTop >>= k) :=
  fun s => h _ s

theorem runs_push (n : Node) : Runs (push n) :=
  fun s hScope => ⟨(), { s with before := s.before ++ [n] }, rfl, hScope⟩

theorem runs_flush : Runs flush :=
  fun s hScope => ⟨s.before, { s with before := [] }, rfl, hScope⟩

theorem runs_temporary (span : Span) : Runs (temporary span) := by
  intro s hScope
  obtain ⟨scope, hRegion⟩ := exists_scope?_of_hasScope hScope
  obtain ⟨k, table, _, hFresh, _, _, _, hSame⟩ := ScopeTable.exists_fresh? hRegion temporaryLead
  refine ⟨.ident span (temporaryName k), { s with table := table }, ?_, ?_⟩
  · simp only [temporary, StateT.run_bind, StateT.run_get, pure_bind, hFresh]
    rfl
  · cases hr : s.region with
    | top => trivial
    | function name =>
      rw [hr] at hScope
      change name ∈ table.functionNames
      rw [hSame]
      exact hScope

theorem runs_finish (t : Treatment) (span : Span) (e : Node) : Runs (finish t span e) := by
  have hHoisted : ∀ stmt : Node → Node, Runs (do
      let t ← temporary span
      push (stmt t)
      pure t) := fun stmt =>
    (runs_temporary span).bind fun t => (runs_push (stmt t)).bind fun _ => runs_pure t
  cases t with
  | leave | keep => exact runs_pure e
  | value | truth => exact hHoisted _
  | zero => exact (hHoisted _).bind fun t => runs_pure _

end

variable {n : Node}

theorem runs_flattenAll {xs : List (Position × Node)} (h : ∀ x ∈ xs, Runs (flattenAt x.1 x.2)) :
    Runs (flattenAll xs) := by
  induction xs with
  | nil => exact runs_pure []
  | cons x rest ih =>
    obtain ⟨hx, hRest⟩ := List.forall_mem_cons.mp h
    exact hx.bind fun n => (ih hRest).bind fun ns => runs_pure (n :: ns)

theorem runs_flattenAt (hn : n.isExpression = true) (p : Position) : Runs (flattenAt p n) := by
  induction n using Node.inductionOnParts generalizing p with
  | step n ih =>
    have hPresent : n.isAbsent = false := by
      cases n with
      | absent => cases hn
      | _ => rfl
    rw [flattenAt_eq hPresent]
    refine runs_atTop fun top => ?_
    unfold turned
    split
    · exact runs_pure n
    · refine (runs_flattenAll fun x hx => ?_).bind fun es => runs_finish _ _ _
      exact ih x.2 (mem_children_of_mem_parts hx) (isExpression_parts hn x hx) x.1

theorem runs_statements {ns : List Node} (h : ∀ n ∈ ns, Runs (statement n)) : Runs (statements ns) := by
  induction ns with
  | nil => exact runs_pure []
  | cons n rest ih =>
    obtain ⟨hn, hRest⟩ := List.forall_mem_cons.mp h
    exact hn.bind fun first => (ih hRest).bind fun others => runs_pure (first ++ others)

theorem runs_body {β : Type} {k : Node → Flat β} (hn : n.isAbsent = true ∨ Runs (statement n))
    (hk : ∀ n', Runs (k n')) :
    Runs (if n.isAbsent = true then pure .absent >>= k
      else statement n >>= fun stmts => pure (single n.span stmts) >>= k) := by
  split
  · exact hk .absent
  · next hPresent => exact (hn.resolve_left hPresent).bind fun stmts => hk (single n.span stmts)

theorem runs_statement (hn : n.isStatement = true) : Runs (statement n) := by
  have hFlushed : ∀ stmt : Node, Runs (do
      let before ← flush
      pure (before ++ [stmt])) := fun stmt => runs_flush.bind fun before => runs_pure _
  induction n using Node.induction with
  | comment | globals | empty => exact runs_pure _
  | block span stmts synthetic ih =>
    simp only [Node.isStatement, Bool.and_eq_true, Node.areStatements_iff] at hn
    exact (runs_statements fun m hm => ih m hm (hn.2 m hm)).bind fun stmts' => runs_pure _
  | assign span lhs rhs =>
    simp only [Node.isStatement, Bool.and_eq_true] at hn
    refine (runs_flattenAt hn.1.2 .place).bind fun lhs' => ?_
    split
    · exact (runs_flattenAt hn.2 .condition).bind fun cond => hFlushed _
    · exact (runs_flattenAt hn.2 .value).bind fun rhs' => hFlushed _
  | call span callee args => exact (runs_flattenAt hn .text).bind fun call => hFlushed call
  | branch span cond thenBody elseBody _ ihThen ihElse =>
    simp only [Node.isStatement, Bool.and_eq_true, Bool.or_eq_true] at hn
    refine (runs_flattenAt hn.1.1 .condition).bind fun cond' => runs_flush.bind fun before => ?_
    refine runs_body (.inr (ihThen hn.1.2)) fun thenBody' => ?_
    exact runs_body (hn.2.imp_right ihElse) fun elseBody' => runs_pure _
  | loop span cond body _ ihBody =>
    simp only [Node.isStatement, Bool.and_eq_true] at hn
    refine (runs_flattenAt hn.1 .condition).bind fun cond' => runs_flush.bind fun before => ?_
    exact (ihBody hn.2).bind fun stmts => runs_pure _
  | ret span e =>
    rw [statement]
    split
    · exact runs_pure _
    · next hPresent =>
      have he : e.isExpression = true := by simpa [Node.isStatement, hPresent] using hn
      exact (runs_flattenAt he .value).bind fun e' => hFlushed _
  | _ => cases hn

section

variable {s : State}

theorem exists_becomes (hn : n.isStatement = true) (hScope : HasScope s.table s.region)
    (hBefore : s.before = []) :
    ∃ stmts s', (statement n).run s = .ok (stmts, s') ∧ Becomes s.region.inFunction [n] stmts ∧
      Adds s [] s' := by
  obtain ⟨stmts, s', hRun, -⟩ := runs_statement hn s hScope
  exact ⟨stmts, s', hRun, complies n hRun hBefore⟩

theorem exists_gathered (hn : n.isStatement = true) (hScope : HasScope s.table s.region)
    (hBefore : s.before = []) :
    ∃ stmts s', (functionBody n).run s = .ok (gathered n stmts, s') ∧
      Becomes s.region.inFunction (bodyStatements n) stmts ∧ Adds s [] s' := by
  have hBody : Runs (functionBody n) := by
    rw [functionBody_eq]
    exact runs_body (.inr (runs_statement hn)) runs_pure
  obtain ⟨body, s', hRun, -⟩ := hBody s hScope
  have hSame := hRun
  rw [functionBody_eq] at hSame
  obtain ⟨stmts, s₁, hBecomes, hAdds, hPure⟩ := becomes_of_run_body (complies n) hSame hBefore
  cases hPure
  exact ⟨stmts, s', hRun, hBecomes, hAdds⟩

end

theorem isStatement_of_isItem (hn : n.isFunc = false) (h : n.isItem = true) : n.isStatement = true := by
  cases n with
  | func => cases hn
  | _ => exact h

theorem exists_run_of_isItem {ns : List Node} {s : State} (hItems : ∀ n ∈ ns, n.isItem = true)
    (hNames : ∀ name ∈ ScopeTable.declaredFunctions ns, name ∈ s.table.functionNames)
    (hBefore : s.before = []) : ∃ out s', (items ns).run s = .ok (out, s') := by
  induction ns generalizing s with
  | nil => exact ⟨[], s, rfl⟩
  | cons n rest ih =>
    obtain ⟨hItem, hRest⟩ := List.forall_mem_cons.mp hItems
    cases hFunc : n.isFunc with
    | true =>
      cases n with
      | func span name params body =>
        simp only [Node.isItem, Bool.and_eq_true] at hItem
        obtain ⟨hName, hNames⟩ := List.forall_mem_cons.mp hNames
        obtain ⟨stmts, s₁, hRun, -, hAdds⟩ :=
          exists_gathered (s := { s with region := .function name }) hItem.2 hName hBefore
        obtain ⟨out, s', hRunRest⟩ := ih hRest (fun x hx => hAdds.functions ▸ hNames x hx)
          (by rw [hAdds.before, List.append_nil, hBefore])
        exact ⟨_, s', run_items_func hRun hRunRest⟩
      | _ => cases hFunc
    | false =>
      rw [ScopeTable.declaredFunctions_cons hFunc] at hNames
      obtain ⟨stmts, s₁, hRun, -, hAdds⟩ := exists_becomes (s := { s with region := .top })
        (isStatement_of_isItem hFunc hItem) trivial hBefore
      obtain ⟨out, s', hRunRest⟩ := ih hRest (fun x hx => hAdds.functions ▸ hNames x hx)
        (by rw [hAdds.before, List.append_nil, hBefore])
      exact ⟨_, s', run_items_statement hFunc hRun hRunRest⟩

theorem exists_itemsBecome {table : ScopeTable} {root : Node} (hRoot : root.isProgram = true)
    (hNames : ∀ name ∈ ScopeTable.declaredFunctions (ScopeTable.itemsOf root),
      name ∈ table.functionNames) :
    ∃ span ns out synthetic table', root = .block span ns synthetic ∧
      flatten table root = .ok (.block span out synthetic, table') ∧ ItemsBecome ns out ∧
      table'.functionNames = table.functionNames := by
  cases root with
  | block span ns synthetic =>
    simp only [Node.isProgram, Bool.and_eq_true, List.all_eq_true] at hRoot
    obtain ⟨out, s, hRun⟩ := exists_run_of_isItem (s := { table := table }) hRoot.2 hNames rfl
    obtain ⟨hBecome, hFunctions⟩ := itemsBecome_of_run hRun rfl
    refine ⟨span, ns, out, synthetic, s.table, rfl, ?_, hBecome, hFunctions⟩
    rw [flatten, program, run_bind_of_ok hRun]
    rfl
  | _ => cases hRoot

end BatchCompiler.Syntax.Flattening
