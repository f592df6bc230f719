import BatchCompiler.Proofs.Lowering.Relabelling
import BatchCompiler.Proofs.Script.Scoping

/-!
# Rendering an outline

How many lines code has, and whether there are variables enough to render it, can be read off its
outline.
-/

namespace BatchCompiler.Target

mutual

theorem height_stmt_outline : (s : Stmt) → s.outline.height = s.height
  | .whenTrue c body => by rw [Stmt.outline, Stmt.height, Stmt.height, height_outline body]
  | .choose c thenBody elseBody => by
    rw [Stmt.outline, Stmt.height, Stmt.height, height_outline thenBody, height_outline elseBody]
  | .absent | .raw _ | .comment _ | .label _ | .jump _ | .setText .. | .setNumber .. | .call .. => rfl

theorem height_outline : (code : List Stmt) → height (outline code) = height code
  | [] => rfl
  | s :: rest => by rw [outline, height, height, height_stmt_outline s, height_outline rest]

end

end BatchCompiler.Target

namespace BatchCompiler.Script

open Target Lowering

theorem itemsCount_append (a b : List LineItem) :
    itemsCount (a ++ b) = itemsCount a + itemsCount b := by
  induction a with
  | nil => simp [itemsCount]
  | cons i rest ih => rw [List.cons_append, itemsCount, itemsCount, ih, Nat.add_assoc]

theorem itemsCount_fragmentItems (literal : String → String) (fs : List Fragment) :
    itemsCount (fragmentItems literal (textOutline fs)) = itemsCount (fragmentItems literal fs) := by
  induction fs with
  | nil => rfl
  | cons f rest ih =>
    cases f with
    | absent => exact ih
    | text | read => exact congrArg₂ (· + ·) rfl ih

theorem itemsCount_argumentItems {items : List Fragment → List LineItem}
    (h : ∀ fs, itemsCount (items (textOutline fs)) = itemsCount (items fs))
    (args : List (List Fragment)) :
    itemsCount (argumentItems items (args.map textOutline)) = itemsCount (argumentItems items args) := by
  induction args with
  | nil => rfl
  | cons a rest ih =>
    have hCons : ∀ a rest, itemsCount (argumentItems items (a :: rest)) =
        0 + itemsCount (items a) + itemsCount (argumentItems items rest) :=
      fun a _ => itemsCount_append (.text " " :: items a) _
    rw [List.map_cons, hCons, hCons, h, ih]

theorem itemsCount_conditionItems (c : Comparison) :
    itemsCount (conditionItems c.outline) = itemsCount (conditionItems c) := by
  obtain ⟨op, left, right⟩ := c
  cases op <;>
    simp only [Comparison.outline, conditionItems, List.cons_append, itemsCount, itemsCount_append,
      itemsCount_fragmentItems]

theorem headCount_outline (s : Stmt) : headCount s.outline = headCount s := by
  unfold headCount
  cases s with
  | absent | raw | comment | label | jump | setNumber => rfl
  | setText dst value =>
    simp only [Stmt.outline, headItems, List.cons_append, itemsCount, itemsCount_append,
      itemsCount_fragmentItems]
  | call callee args =>
    have hCall : ∀ callee : Fragment, itemsCount (callItems callee (args.map textOutline)) =
        itemsCount (callItems callee args) := fun callee => by
      rw [callItems, callItems, itemsCount_append, itemsCount_append,
        itemsCount_argumentItems (itemsCount_fragmentItems unquotedText)]
    cases callee with
    | absent | read => exact hCall _
    | text s =>
      simp only [Stmt.outline, headItems]
      split
      · rw [itemsCount, itemsCount, itemsCount_argumentItems]
        intro fs
        simp only [quotedItems, List.cons_append, itemsCount, itemsCount_append,
          itemsCount_fragmentItems]
      · exact hCall _
  | whenTrue c | choose c =>
    simp only [Stmt.outline, headItems, List.cons_append, itemsCount, itemsCount_append,
      itemsCount_conditionItems]

mutual

theorem loadsOf_stmt_outline (outer : Nat) : (s : Stmt) →
    loadsOfStmt outer s.outline = loadsOfStmt outer s
  | .whenTrue c body => by
    have hCount := headCount_outline (.whenTrue c body)
    rw [Stmt.outline] at hCount ⊢
    rw [loadsOfStmt, loadsOfStmt, hCount, loadsOf_outline _ body]
  | .choose c thenBody elseBody => by
    have hCount := headCount_outline (.choose c thenBody elseBody)
    rw [Stmt.outline] at hCount ⊢
    rw [loadsOfStmt, loadsOfStmt, hCount, loadsOf_outline _ thenBody, loadsOf_outline _ elseBody]
  | .absent | .raw _ | .comment _ | .label _ | .jump _ | .setText .. | .setNumber .. | .call .. =>
    congrArg (fun n => [outer + n]) (headCount_outline _)

theorem loadsOf_outline (outer : Nat) : (code : List Stmt) →
    loadsOf outer (outline code) = loadsOf outer code
  | [] => rfl
  | s :: rest => by
    rw [outline, loadsOf, loadsOf, loadsOf_stmt_outline outer s, loadsOf_outline outer rest]

end

theorem exists_render_of_outline {ending script : String} {p p' : Program}
    (hOutline : outline p = outline p') (hRenders : Renders p')
    (h : render ending p = .ok script) : ∃ script', render ending p' = .ok script' := by
  obtain ⟨r, hr, -⟩ := exists_of_bind_eq_ok h
  obtain ⟨r', hr'⟩ := hRenders { lineEnding := ending }
  have hLoads := overflow_of_renderStmts _ (Nat.zero_le 52) p r hr
  have hLoads' := overflow_of_renderStmts _ (Nat.zero_le 52) p' r' hr'
  rw [← loadsOf_outline, hOutline, loadsOf_outline, ← hLoads'] at hLoads
  rw [render_eq hr] at h
  rw [render_eq hr', Bool.eq_iff_iff.mpr hLoads.symm]
  split at h
  · cases h
  · next hOverflow => exact ⟨r'.text, if_neg hOverflow⟩

end BatchCompiler.Script
