import BatchCompiler.Proofs.Flattening.Rules
import BatchCompiler.Proofs.Syntax.Leaves
import BatchCompiler.Proofs.Syntax.Loops

/-!
# Leaves of flat programs

Whatever flattening makes of a region is spelled with the leaves of that region and temporaries, and
it loses none of those leaves. Function declarations stay where they are, and so do the functions of
the table. No loop is added or moved to another place.
-/

namespace BatchCompiler.Syntax.Flattening

open Node (leavesOf loopsOf)

variable {inFunction : Bool} {xs : List (Position × Node)} {ns new out stmts : List Node} {n : Node}
  {x : Leaf} {P : Region → Leaf → Prop} {table table' : ScopeTable}

theorem Turns.loopsOf_new (h : Turns inFunction xs ns new) (arms : List Arm) :
    loopsOf arms new = [] := by
  apply Node.loopsOf_eq_nil
  intro n hn
  obtain ⟨t, span, e, temp, rfl⟩ := h.exists_filling hn
  unfold filling
  split <;> simp [assignTruth, Node.loops, loopsOf]

theorem leavesOf_append (a b : List Node) : leavesOf (a ++ b) = leavesOf a ++ leavesOf b := by
  induction a with
  | nil => rfl
  | cons n rest ih => rw [List.cons_append, leavesOf, leavesOf, ih, List.append_assoc]

def ownLeaves : Node → List Leaf
  | .subscript .. | .unary .. | .binary .. | .concat .. | .strCompare .. | .list .. => []
  | .call _ callee _ => callee.calleeLeaves
  | n => n.leaves

theorem leaves_eq (n : Node) : n.leaves = ownLeaves n ++ leavesOf ((parts n).map Prod.snd) := by
  cases n <;> simp [Node.leaves, ownLeaves, parts, Node.operands, leavesOf, Function.comp_def]

theorem leaves_rebuild {es : List Node} (h : es.length = (parts n).length) :
    (rebuild n es).leaves = ownLeaves n ++ leavesOf es := by
  match es with
  | [] | [_] | [_, _] =>
    cases n <;> simp_all [Node.leaves, ownLeaves, rebuild, leavesOf, parts, Node.operands]
  | _ :: _ :: _ :: _ =>
    cases n <;> simp_all [Node.leaves, ownLeaves, rebuild, leavesOf, parts, Node.operands]

def IsTemporary (x : Leaf) : Prop :=
  ∃ k, x = .name (temporaryName k)

theorem mem_leaves_filling (hx : ¬IsTemporary x) (t : Treatment) (span : Span) (e : Node) (k : Nat) :
    x ∈ (filling t span e (.ident span (temporaryName k))).leaves ↔ x ∈ e.leaves := by
  have hNe : x ≠ .name (temporaryName k) := fun h => hx ⟨k, h⟩
  unfold filling
  split <;> simp [assignTruth, Node.leaves, leavesOf, hNe]

theorem mem_leaves_remainder (hx : ¬IsTemporary x) (t : Treatment) (span : Span) (k : Nat) :
    x ∉ (remainder t span (.ident span (temporaryName k))).leaves := by
  have hNe : x ≠ .name (temporaryName k) := fun h => hx ⟨k, h⟩
  unfold remainder
  split <;> simp [Node.leaves, hNe]

theorem Turns.mem_leavesOf_iff (h : Turns inFunction xs ns new) (hx : ¬IsTemporary x) :
    x ∈ leavesOf ns ∨ x ∈ leavesOf new ↔ x ∈ leavesOf (xs.map Prod.snd) := by
  induction h with
  | nil => simp [leavesOf]
  | leave _ _ _ ih => simp [leavesOf, ← ih, or_assoc]
  | @keep _ n _ _ _ _ _ _ hParts _ _ ihParts ih =>
    simp only [List.map_cons, leavesOf, leavesOf_append, List.mem_append, ← ih,
      leaves_rebuild hParts.length_eq, leaves_eq n, ← ihParts]
    grind
  | @move _ n _ _ _ _ _ number _ hParts _ _ ihParts ih =>
    simp only [List.map_cons, leavesOf, leavesOf_append, List.mem_append, ← ih,
      mem_leaves_filling hx, leaves_rebuild hParts.length_eq, leaves_eq n, ← ihParts,
      mem_leaves_remainder hx]
    grind

theorem leaves_single (span : Span) (stmts : List Node) :
    (single span stmts).leaves = leavesOf stmts := by
  unfold single
  split
  · rw [leavesOf, leavesOf, List.append_nil]
  · rfl

theorem loops_single (span : Span) (stmts : List Node) (arms : List Arm) :
    (single span stmts).loops arms = loopsOf arms stmts := by
  unfold single
  split
  · rw [Node.loopsOf_singleton]
  · rw [Node.loops]

theorem leavesOf_bodyStatements (n : Node) : leavesOf (bodyStatements n) = n.leaves := by
  cases n <;> simp [bodyStatements, Node.isAbsent, leavesOf, Node.leaves]

theorem loopsOf_bodyStatements (n : Node) (arms : List Arm) :
    loopsOf arms (bodyStatements n) = n.loops arms := by
  cases n <;> simp [bodyStatements, Node.isAbsent, loopsOf, Node.loops]

theorem leaves_gathered (h : Becomes inFunction (bodyStatements n) stmts) :
    (gathered n stmts).leaves = leavesOf stmts := by
  unfold gathered
  split
  · next hAbsent =>
    rw [bodyStatements, if_pos hAbsent] at h
    cases h
    rfl
  · exact leaves_single n.span stmts

theorem loops_gathered (h : Becomes inFunction (bodyStatements n) stmts) (arms : List Arm) :
    (gathered n stmts).loops arms = loopsOf arms stmts := by
  unfold gathered
  split
  · next hAbsent =>
    rw [bodyStatements, if_pos hAbsent] at h
    cases h
    simp [Node.loops, loopsOf]
  · exact loops_single n.span stmts arms

theorem Becomes.loopsOf_eq (h : Becomes inFunction ns out) (arms : List Arm) :
    loopsOf arms out = loopsOf arms ns := by
  induction h generalizing arms with
  | nil => rfl
  | passed _ _ ih => rw [loopsOf, loopsOf, ih]
  | block _ _ ihStmts ih => rw [loopsOf, loopsOf, ih, Node.loops, Node.loops, ihStmts]
  | assign _ hTurns _ ih | decide _ hTurns _ ih | call hTurns _ ih | ret hTurns _ ih =>
    rw [Node.loopsOf_append, hTurns.loopsOf_new]
    simp [loopsOf, Node.loops, ih, assignTruth]
  | branch hTurns hThen hElse _ ihThen ihElse ih =>
    rw [Node.loopsOf_append, hTurns.loopsOf_new, List.nil_append, loopsOf, loopsOf, ih, Node.loops,
      Node.loops, loops_gathered hThen, loops_gathered hElse, ihThen, ihElse,
      loopsOf_bodyStatements, loopsOf_bodyStatements]
  | loop hTurns hBody _ ihBody ih =>
    rw [Node.loopsOf_append, hTurns.loopsOf_new, List.nil_append, loopsOf, loopsOf, ih, Node.loops,
      Node.loops, loops_single, Node.loopsOf_append, ihBody, hTurns.loopsOf_new, List.append_nil,
      Node.loopsOf_singleton]

theorem Becomes.mem_leavesOf_iff (h : Becomes inFunction ns out) (hx : ¬IsTemporary x) :
    x ∈ leavesOf out ↔ x ∈ leavesOf ns := by
  induction h with
  | nil => rfl
  | passed _ _ ih => simp [leavesOf, ih]
  | block _ _ ihStmts ih => simp [leavesOf, Node.leaves, ihStmts, ih]
  | assign _ hTurns _ ih | decide _ hTurns _ ih | call hTurns _ ih | ret hTurns _ ih =>
    have hLeaves := hTurns.mem_leavesOf_iff hx
    simp only [leavesOf, leavesOf_append, Node.leaves, List.mem_append, assignTruth, List.map_cons,
      List.map_nil, List.map_map, List.mem_nil_iff, ih, Function.comp_def, List.map_id'] at hLeaves ⊢
    grind
  | branch hTurns hThen hElse _ ihThen ihElse ih =>
    have hLeaves := hTurns.mem_leavesOf_iff hx
    simp only [leavesOf, leavesOf_append, Node.leaves, List.mem_append, List.map_cons, List.map_nil,
      List.mem_nil_iff, ih, leaves_gathered hThen, leaves_gathered hElse, ihThen, ihElse,
      leavesOf_bodyStatements] at hLeaves ⊢
    grind
  | loop hTurns hBody _ ihBody ih =>
    have hLeaves := hTurns.mem_leavesOf_iff hx
    simp only [leavesOf, leavesOf_append, Node.leaves, List.mem_append, List.map_cons, List.map_nil,
      List.mem_nil_iff, ih, leaves_single, ihBody] at hLeaves ⊢
    grind

theorem Becomes.everyLeaf {P : Leaf → Prop} (hTemporary : ∀ k, P (.name (temporaryName k)))
    (h : Becomes inFunction ns out) (hns : ∀ n ∈ ns, n.EveryLeaf P) : ∀ n ∈ out, n.EveryLeaf P := by
  rw [← Node.forall_leavesOf_iff] at hns ⊢
  intro x hx
  by_cases hName : IsTemporary x
  · obtain ⟨k, rfl⟩ := hName
    exact hTemporary k
  · exact hns x ((h.mem_leavesOf_iff hName).mp hx)

theorem declaredFunctions_append {a b : List Node} (ha : ∀ n ∈ a, n.isFunc = false) :
    ScopeTable.declaredFunctions (a ++ b) = ScopeTable.declaredFunctions b := by
  induction a with
  | nil => rfl
  | cons n rest ih =>
    have hn := ha n List.mem_cons_self
    have hRest := ih fun x hx => ha x (List.mem_cons_of_mem n hx)
    cases n with
    | func => cases hn
    | _ => exact hRest

/-- The flat program and its table have the functions and the loops of the program, and its regions
have leaves of their own. -/
structure KeepsRegions (P : Region → Leaf → Prop) (table table' : ScopeTable) (root flat : Node) :
    Prop where
  leaves : ∀ n ∈ ScopeTable.itemsOf flat, n.EveryLeaf (P n.region)
  declared : ScopeTable.declaredFunctions (ScopeTable.itemsOf flat) =
    ScopeTable.declaredFunctions (ScopeTable.itemsOf root)
  functionNames : table'.functionNames = table.functionNames
  loops : Node.topLoops (ScopeTable.itemsOf flat) = Node.topLoops (ScopeTable.itemsOf root)
  outlines : Node.functionOutlines (ScopeTable.itemsOf flat) =
    Node.functionOutlines (ScopeTable.itemsOf root)

theorem ItemsBecome.everyLeaf (hTemporary : ∀ r k, P r (.name (temporaryName k)))
    (h : ItemsBecome ns out) (hns : ∀ n ∈ ns, n.EveryLeaf (P n.region)) :
    ∀ n ∈ out, n.EveryLeaf (P n.region) := by
  induction h with
  | nil => exact hns
  | @func _ name _ _ _ _ body hBody _ ih =>
    obtain ⟨hn, hRest⟩ := List.forall_mem_cons.mp hns
    obtain ⟨hName, hParams, hLeaves⟩ := Node.everyLeaf_func_iff.mp hn
    refine List.forall_mem_cons.mpr ⟨Node.everyLeaf_func_iff.mpr ⟨hName, hParams, ?_⟩, ih hRest⟩
    rw [Node.EveryLeaf, leaves_gathered hBody, Node.forall_leavesOf_iff]
    apply hBody.everyLeaf (hTemporary (.function name))
    rw [← Node.forall_leavesOf_iff, leavesOf_bodyStatements]
    exact hLeaves
  | statement hn hStmts _ ih =>
    have hRegion : ∀ {n : Node}, n.isFunc = false → n.region = .top := by
      intro n hn
      cases n with
      | func => cases hn
      | _ => rfl
    obtain ⟨hFirst, hRest⟩ := List.forall_mem_cons.mp hns
    rw [hRegion hn] at hFirst
    refine List.forall_mem_append.mpr ⟨fun m hm => ?_, ih hRest⟩
    rw [hRegion (hStmts.stands (List.forall_mem_singleton.mpr hn) m hm).isFunc]
    exact hStmts.everyLeaf (hTemporary .top) (List.forall_mem_singleton.mpr hFirst) m hm

theorem ItemsBecome.outlines_eq (h : ItemsBecome ns out) :
    ScopeTable.declaredFunctions out = ScopeTable.declaredFunctions ns ∧
      Node.topLoops out = Node.topLoops ns ∧
      Node.functionOutlines out = Node.functionOutlines ns := by
  induction h with
  | nil => exact ⟨rfl, rfl, rfl⟩
  | @func _ name params stmts ns out body hBody _ ih =>
    refine ⟨congrArg (name :: ·) ih.1, ih.2.1, ?_⟩
    have hLoops : (gathered body stmts).loops [] = body.loops [] := by
      rw [loops_gathered hBody, hBody.loopsOf_eq, loopsOf_bodyStatements]
    change ⟨name, params, (gathered body stmts).loops []⟩ :: Node.functionOutlines out =
      ⟨name, params, body.loops []⟩ :: Node.functionOutlines ns
    rw [hLoops, ih.2.2]
  | @statement n stmts ns _ hn hStmts _ ih =>
    have hHead : ∀ x ∈ [n], x.isFunc = false := List.forall_mem_singleton.mpr hn
    have hFirst : ∀ x ∈ stmts, x.isFunc = false := fun x hx => (hStmts.stands hHead x hx).isFunc
    refine ⟨?_, ?_, ?_⟩
    · rw [declaredFunctions_append hFirst, ih.1]
      exact (declaredFunctions_append hHead).symm
    · rw [Node.topLoops_append hFirst, ih.2.1, hStmts.loopsOf_eq]
      exact (Node.topLoops_append hHead).symm
    · rw [Node.functionOutlines_append hFirst, ih.2.2]
      exact (Node.functionOutlines_append hHead).symm

theorem kept_of_flatten {root flat : Node} (hTemporary : ∀ r k, P r (.name (temporaryName k)))
    (hRoot : ∀ n ∈ ScopeTable.itemsOf root, n.EveryLeaf (P n.region))
    (h : flatten table root = .ok (flat, table')) : KeepsRegions P table table' root flat := by
  obtain ⟨hItems | rfl, hNames⟩ := itemsBecome_of_flatten h
  · obtain ⟨hDeclared, hLoops, hOutlines⟩ := hItems.outlines_eq
    exact ⟨hItems.everyLeaf hTemporary hRoot, hDeclared, hNames, hLoops, hOutlines⟩
  · exact ⟨hRoot, rfl, hNames, rfl, rfl⟩

theorem ItemsBecome.mem_leavesOf_iff (h : ItemsBecome ns out) (hx : ¬IsTemporary x) :
    x ∈ leavesOf out ↔ x ∈ leavesOf ns := by
  induction h with
  | nil => rfl
  | func hBody _ ih =>
    have hLeaves := hBody.mem_leavesOf_iff hx
    rw [leavesOf_bodyStatements] at hLeaves
    simp only [leavesOf, Node.leaves, leaves_gathered hBody, List.mem_append, List.mem_cons, hLeaves, ih]
  | statement _ hStmts _ ih =>
    have hLeaves := hStmts.mem_leavesOf_iff hx
    simp only [leavesOf_append, leavesOf, List.append_nil, List.mem_append, ih] at hLeaves ⊢
    rw [hLeaves]

theorem mem_leaves_of_flatten {root flat : Node} (h : flatten table root = .ok (flat, table'))
    (hTemporary : ¬IsTemporary x) (hx : x ∈ root.leaves) : x ∈ flat.leaves := by
  have hItems : ∀ n : Node, leavesOf (ScopeTable.itemsOf n) = n.leaves := by
    intro n
    cases n <;> simp [ScopeTable.itemsOf, leavesOf, Node.leaves]
  obtain ⟨hBecome | rfl, -⟩ := itemsBecome_of_flatten h
  · rw [← hItems] at hx ⊢
    exact (hBecome.mem_leavesOf_iff hTemporary).mpr hx
  · exact hx

end BatchCompiler.Syntax.Flattening
