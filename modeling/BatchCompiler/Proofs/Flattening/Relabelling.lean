import BatchCompiler.Proofs.Flattening.Recasting
import BatchCompiler.Proofs.Scope.Relabelling

/-!
# Flattening relabelled trees

Flattening looks at the form of a tree only: a relabelled tree is flattened to the relabelled flat
tree, with the same temporaries.
-/

namespace BatchCompiler.Syntax.Flattening

variable {g : Relabel}

def relabelled (g : Relabel) : Supply g.keepingNames where
  Alike _ t u := u = t.relabel g
  next := by
    rintro region t u rfl
    rw [ScopeTable.fresh?_relabel]
    cases t.fresh? region temporaryLead with
    | none => exact .inl ⟨rfl, rfl⟩
    | some x => exact .inr ⟨x.1, x.2, x.2.relabel g, rfl, rfl, rfl⟩

theorem commutes_enter (region : Region) :
    Commutes (relabelled g) id (enter region) (enter region) :=
  fun _ _ h => .ok (a := ()) ⟨rfl, h.table, h.before⟩

theorem commutes_items (ns : List Node) :
    Commutes (relabelled g) (List.map (Node.recast g.keepingNames)) (items ns)
      (items (Node.recastAll g.keepingNames ns)) := by
  induction ns with
  | nil => exact commutes_pure []
  | cons n rest ih =>
    have hTop : Commutes (relabelled g) (List.map (Node.recast g.keepingNames))
        (do
          enter .top
          let first ← statement n
          let others ← items rest
          pure (first ++ others))
        (do
          enter .top
          let first ← statement (n.recast g.keepingNames)
          let others ← items (Node.recastAll g.keepingNames rest)
          pure (first ++ others)) := by
      refine (commutes_enter .top).bind fun _ => (commutes_statement n).bind fun first => ?_
      refine ih.bind fun others => ?_
      have h := commutes_pure (T := relabelled g) (f := List.map (Node.recast g.keepingNames))
        (first ++ others)
      rwa [List.map_append] at h
    cases n with
    | func span name params body =>
      rw [Node.recastAll, Node.recast, items, items]
      refine (commutes_enter (.function name)).bind fun _ => ?_
      refine (commutes_functionBody body).bind fun body' => ih.bind fun others => ?_
      exact commutes_pure (Node.func span name params body' :: others)
    | _ => exact hTop

theorem commutes_program (root : Node) :
    Commutes (relabelled g) (Node.recast g.keepingNames) (program root)
      (program (root.recast g.keepingNames)) := by
  cases root with
  | block span stmts synthetic =>
    refine (commutes_items stmts).bind fun stmts' => ?_
    rw [← Node.recastAll_eq_map]
    exact commutes_pure (Node.block span stmts' synthetic)
  | _ => exact commutes_pure _

end Flattening

theorem flatten_relabel (table : ScopeTable) (root : Node) (g : Relabel) :
    flatten (table.relabel g) (root.relabel g) =
      (flatten table root).map fun r => (r.1.relabel g, r.2.relabel g) := by
  have hRun := Flattening.commutes_program (g := g) root { table := table }
    { table := table.relabel g } ⟨rfl, rfl, rfl⟩
  unfold flatten
  rw [← Node.recast_keepingNames]
  generalize (Flattening.program root).run { table := table } = x at hRun
  generalize (Flattening.program (root.recast g.keepingNames)).run { table := table.relabel g } = y
    at hRun
  cases hRun with
  | error why => rfl
  | @ok flat s u h =>
    have hTable : u.table = s.table.relabel g := h.table
    simp only [Except.map, hTable, Node.recast_keepingNames]

end BatchCompiler.Syntax
