import BatchCompiler.Proofs.Script.Rows

/-!
# Rendering meets no missing statement

Only a missing statement cannot be rendered. What can be moved into a frame misses none, before and
after it is moved, and lowering makes only such code.
-/

namespace BatchCompiler.Target

open Lowering (exists_of_bind_eq_ok)

mutual

def Stmt.isPresent : Stmt → Bool
  | .absent => false
  | .whenTrue _ body => arePresent body
  | .choose _ thenBody elseBody => arePresent thenBody && arePresent elseBody
  | _ => true

def arePresent : List Stmt → Bool
  | [] => true
  | s :: rest => s.isPresent && arePresent rest

end

mutual

theorem isPresent_of_inFrame : (s : Stmt) → ∀ s', s.inFrame = .ok s' → s.isPresent = true
  | .absent, _, h => nomatch h
  | .whenTrue _ body, _, h => by
    obtain ⟨_, _, h⟩ := exists_of_bind_eq_ok h
    obtain ⟨body', hBody, -⟩ := exists_of_bind_eq_ok h
    exact arePresent_of_inFrame body body' hBody
  | .choose _ t e, _, h => by
    obtain ⟨_, _, h⟩ := exists_of_bind_eq_ok h
    obtain ⟨t', ht, h⟩ := exists_of_bind_eq_ok h
    obtain ⟨e', he, -⟩ := exists_of_bind_eq_ok h
    exact Bool.and_eq_true_iff.mpr ⟨arePresent_of_inFrame t t' ht, arePresent_of_inFrame e e' he⟩
  | .raw _, _, _ | .comment _, _, _ | .label _, _, _ | .jump _, _, _ | .setText .., _, _
  | .setNumber .., _, _ | .call .., _, _ => rfl

theorem arePresent_of_inFrame : (code : List Stmt) → ∀ code', inFrame code = .ok code' →
    arePresent code = true
  | [], _, _ => rfl
  | s :: rest, _, h => by
    obtain ⟨s', hs, h⟩ := exists_of_bind_eq_ok h
    obtain ⟨rest', hRest, -⟩ := exists_of_bind_eq_ok h
    exact Bool.and_eq_true_iff.mpr
      ⟨isPresent_of_inFrame s s' hs, arePresent_of_inFrame rest rest' hRest⟩

end

mutual

theorem isPresent_framed : (s : Stmt) → s.framed.isPresent = s.isPresent
  | .whenTrue _ body => arePresent_framed body
  | .choose _ t e => congrArg₂ (· && ·) (arePresent_framed t) (arePresent_framed e)
  | .absent | .raw _ | .comment _ | .label _ | .jump _ | .setText .. | .setNumber .. | .call .. => rfl

theorem arePresent_framed : (code : List Stmt) → arePresent (framed code) = arePresent code
  | [] => rfl
  | s :: rest => congrArg₂ (· && ·) (isPresent_framed s) (arePresent_framed rest)

end

end BatchCompiler.Target

namespace BatchCompiler.Script

open Target Lowering

/-- The code is written at every place of a script, with as many variables as it takes. -/
def Renders (code : List Stmt) : Prop :=
  ∀ l, ∃ r, renderStmts l code = .ok r

theorem renders_nil : Renders [] := fun _ => ⟨{}, rfl⟩

theorem renders_cons {s : Stmt} {rest : List Stmt} (hs : ∀ l, ∃ r, renderStmt l s = .ok r)
    (hRest : Renders rest) : Renders (s :: rest) := by
  intro l
  rw [renderStmts]
  exact exists_bind_eq_ok (hs l) fun _ => exists_bind_eq_ok (hRest l) fun _ => ⟨_, rfl⟩

theorem renders_append {a b : List Stmt} (ha : Renders a) (hb : Renders b) : Renders (a ++ b) := by
  induction a with
  | nil => exact hb
  | cons s rest ih =>
    have hSplit : ∀ l, (∃ r, renderStmt l s = .ok r) ∧ ∃ r, renderStmts l rest = .ok r := by
      intro l
      obtain ⟨r, hr⟩ := ha l
      rw [renderStmts] at hr
      obtain ⟨first, hFirst, hr⟩ := exists_of_bind_eq_ok hr
      obtain ⟨others, hOthers, _⟩ := exists_of_bind_eq_ok hr
      exact ⟨⟨first, hFirst⟩, others, hOthers⟩
    exact renders_cons (fun l => (hSplit l).1) (ih fun l => (hSplit l).2)

theorem exists_renderBody_eq_ok {body : List Stmt} (h : Renders body) (l : Layout) :
    ∃ r, renderBody l body = .ok r := by
  cases body with
  | nil => exact ⟨_, rfl⟩
  | cons s rest => exact h l

theorem exists_renderStmt_whenTrue {body : List Stmt} (h : Renders body) (c : Comparison)
    (l : Layout) : ∃ r, renderStmt l (.whenTrue c body) = .ok r := by
  rw [renderStmt_whenTrue]
  exact exists_bind_eq_ok (exists_renderBody_eq_ok h _) fun _ => ⟨_, rfl⟩

theorem exists_renderStmt_choose {thenBody elseBody : List Stmt} (hThen : Renders thenBody)
    (hElse : Renders elseBody) (c : Comparison) (l : Layout) :
    ∃ r, renderStmt l (.choose c thenBody elseBody) = .ok r := by
  rw [renderStmt_choose]
  exact exists_bind_eq_ok (exists_renderBody_eq_ok hThen _) fun _ =>
    exists_bind_eq_ok (exists_renderBody_eq_ok hElse _) fun _ => ⟨_, rfl⟩

mutual

theorem exists_renderStmt_of_isPresent : (s : Stmt) → s.isPresent = true →
    ∀ l, ∃ r, renderStmt l s = .ok r
  | .whenTrue c body, h => exists_renderStmt_whenTrue (renders_of_arePresent body h) c
  | .choose c thenBody elseBody, h => by
    obtain ⟨hThen, hElse⟩ := Bool.and_eq_true_iff.mp h
    exact exists_renderStmt_choose (renders_of_arePresent thenBody hThen)
      (renders_of_arePresent elseBody hElse) c
  | .raw t, _ | .comment t, _ | .label t, _ | .jump t, _ | .setText _ t, _ | .setNumber _ t, _
  | .call _ t, _ => fun _ => ⟨_, rfl⟩

theorem renders_of_arePresent : (code : List Stmt) → arePresent code = true → Renders code
  | [], _ => renders_nil
  | s :: rest, h => by
    obtain ⟨hs, hRest⟩ := Bool.and_eq_true_iff.mp h
    exact renders_cons (exists_renderStmt_of_isPresent s hs) (renders_of_arePresent rest hRest)

end

theorem renders_of_inFrame {code code' : List Stmt} (h : inFrame code = .ok code') :
    Renders code ∧ Renders code' := by
  have hPresent := arePresent_of_inFrame code code' h
  rw [eq_framed code code' h]
  exact ⟨renders_of_arePresent code hPresent,
    renders_of_arePresent _ ((arePresent_framed code).trans hPresent)⟩

theorem renders_of_framable {stmts : List Stmt} (h : Framable stmts) : Renders stmts := by
  obtain ⟨stmts', hFrame⟩ := h
  exact (renders_of_inFrame hFrame).1

theorem renders_parameterCopies (slot : Int) (names : List String) :
    Renders (parameterCopies slot names) := by
  induction names generalizing slot with
  | nil => exact renders_nil
  | cons x rest ih => exact renders_cons (fun l => ⟨_, rfl⟩) (ih (slot + 1))

theorem renders_assemble {name : String} {params : List String} {body : List Stmt}
    (h : Renders body) : Renders (assemble name params body) := by
  have hReturn : Renders (if endsWithReturn body then [] else [.jump endOfFile]) := by
    split
    · exact renders_nil
    · exact renders_cons (fun l => ⟨_, rfl⟩) renders_nil
  unfold assemble
  apply renders_append
  · apply renders_append _ hReturn
    apply renders_append _ h
    apply renders_append _ (renders_parameterCopies _ _)
    exact renders_cons (fun l => ⟨_, rfl⟩) (renders_cons (fun l => ⟨_, rfl⟩) renders_nil)
  · exact renders_cons (fun l => ⟨_, rfl⟩) renders_nil

theorem renders_of_loweredEach {c : Context} {ns : List Node} {regions : List (Region × List Stmt)}
    {k k' : Nat} (h : LoweredEach c ns k regions k') : Renders (Lowering.joined regions) := by
  induction h with
  | nil => exact renders_nil
  | cons _ _ hFrame _ _ ih =>
    exact renders_append (renders_assemble (renders_of_inFrame hFrame).2) ih

theorem renders_setup : Renders setup :=
  renders_of_framable ⟨setup, rfl⟩

theorem renders_of_lower {settings : Settings} {table : ScopeTable} {root : Node} {p : Program}
    (h : (lower settings table root).1 = .ok p) : Renders p := by
  obtain ⟨regions, s, hRun, rfl⟩ := exists_run_of_lower_eq_ok h
  obtain ⟨top, funcs, k, rfl, hTop, hFuncs⟩ := exists_of_lowerRegions hRun
  refine renders_append renders_setup (renders_append ?_ (renders_of_loweredEach hFuncs))
  exact renders_of_framable hTop.framable

theorem render_eq {lineEnding : String} {p : Program} {r : Rendered}
    (h : renderStmts { lineEnding := lineEnding } p = .ok r) :
    render lineEnding p = if r.overflow then .error .tooManyIndices else .ok r.text := by
  unfold render
  rw [h]
  rfl

theorem Renders.render {code : Program} (h : Renders code) (lineEnding : String) :
    (∃ text, render lineEnding code = .ok text) ∨ render lineEnding code = .error .tooManyIndices := by
  obtain ⟨r, hr⟩ := h { lineEnding := lineEnding }
  rw [render_eq hr]
  split
  · exact .inr rfl
  · exact .inl ⟨r.text, rfl⟩

end BatchCompiler.Script
