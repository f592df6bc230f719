import BatchCompiler.Proofs.Flattening.Expressions

/-!
# Flattening statements

Running a statement and running its flat form go in step: with the same bound on the rounds of loops
both end or neither does, in worlds that differ in temporaries only. A loop prepares its condition
before it starts and again at the end of every round.
-/

namespace BatchCompiler.Syntax.Flattening

open Meaning

variable {R S : World → World → Prop} {n n' : Node} {r r' : Result} {f' : World → Result}
  {ns out new stmts : List Node} {inFunction : Bool}

structure Alike (w w' : World) : Prop where
  store : Agree w.store w'.store
  events : w'.events = w.events

/-- The runs end alike, in worlds that are related when the end of the statements is reached. -/
inductive Matches (R : World → World → Prop) : Result → Result → Prop where
  | unfinished : Matches R none none
  | finished {w w' : World} (h : R w w') : Matches R (some (.finished, w)) (some (.finished, w'))
  | returned {v : Option Value} {w w' : World} (h : Alike w w') :
    Matches R (some (.returned v, w)) (some (.returned v, w'))

theorem Matches.andThen {f : World → Result} (h : Matches R r r')
    (hf : ∀ w w', R w w' → Matches S (f w) (f' w')) : Matches S (r.andThen f) (r'.andThen f') := by
  cases h with
  | unfinished => exact .unfinished
  | finished hR => exact hf _ _ hR
  | returned hAlike => exact .returned hAlike

theorem Matches.andThen_right (h : Matches R r r')
    (hf : ∀ w w', R w w' → ∃ v, f' w' = some (.finished, v) ∧ S w v) :
    Matches S r (r'.andThen f') := by
  cases h with
  | unfinished => exact .unfinished
  | finished hR =>
    obtain ⟨v, hRun, hS⟩ := hf _ _ hR
    simp only [Result.andThen, hRun]
    exact .finished hS
  | returned hAlike => exact .returned hAlike

theorem matches_iterate {test test' : World → Bool} {body body' : World → Result}
    (hTest : ∀ w w', R w w' → Alike w w' ∧ test' w' = test w)
    (hBody : ∀ w w', R w w' → Matches R (body w) (body' w')) (tests : Nat) {w w' : World}
    (h : R w w') : Matches Alike (iterate test body tests w) (iterate test' body' tests w') := by
  induction tests generalizing w w' with
  | zero => exact .unfinished
  | succ tests ih =>
    obtain ⟨hAlike, hSame⟩ := hTest w w' h
    simp only [iterate, hSame]
    split
    · exact (hBody w w' h).andThen fun _ _ hNext => ih hNext
    · exact .finished hAlike

def CallsIgnoreTemporaries (I : Interpretation) : Prop :=
  ∀ events σ τ, Agree σ τ → Agree (I.effect events σ) (I.effect events τ)

/-- The statement lists go in step from worlds that differ in temporaries only. -/
def Mirrors (original flat : List Node) : Prop :=
  ∀ I : Interpretation, I.lists = .together → CallsIgnoreTemporaries I → ∀ rounds w w', Alike w w' →
    Matches Alike (execAll I rounds original w) (execAll I rounds flat w')

theorem exec_single (I : Interpretation) (rounds : Nat) (span : Span) (stmts : List Node)
    (w : World) : exec I rounds (single span stmts) w = execAll I rounds stmts w := by
  unfold single
  split
  · rw [execAll_singleton]
  · rw [exec]

/-- A body that is absent stays so, and another one is gathered into one statement. -/
theorem Mirrors.gathered (h : Mirrors (bodyStatements n) stmts) {I : Interpretation}
    (hLists : I.lists = .together) (hCalls : CallsIgnoreTemporaries I) (rounds : Nat)
    {w w' : World} (hAlike : Alike w w') :
    Matches Alike (exec I rounds n w) (exec I rounds (gathered n stmts) w') := by
  have hRun := h I hLists hCalls rounds w w' hAlike
  unfold Flattening.gathered
  split
  · next hAbsent =>
    cases n with
    | absent => exact .finished hAlike
    | _ => cases hAbsent
  · next hPresent =>
    rwa [bodyStatements, if_neg hPresent, execAll_singleton, ← exec_single I rounds n.span] at hRun

mutual

theorem agree_put {σ τ : Store} (h : Agree σ τ) (l : Location) :
    (v : Value) → Agree (σ.put l v) (τ.put l v)
  | .text s => by
    intro k hk
    simp only [Store.put, Store.set, h k hk]
  | .list elems => by
    simp only [Store.put]
    exact agree_putFrom h l 0 elems

theorem agree_putFrom {σ τ : Store} (h : Agree σ τ) (l : Location) (position : Nat) :
    (vs : List Value) → Agree (σ.putFrom l position vs) (τ.putFrom l position vs)
  | [] => by
    simp only [Store.putFrom]
    exact h
  | v :: rest => by
    simp only [Store.putFrom]
    exact agree_putFrom (agree_put h _ v) l (position + 1) rest

end

section

variable {xs : List (Position × Node)} {es : List Node} (h : Turns inFunction xs es new)
  (hxs : ∀ x ∈ xs, x.2.isExpression = true ∧ x.2.isCallFree = true)

include h hxs

theorem Turns.exists_prepared (I : Interpretation) {w w' : World} (hAlike : Alike w w') :
    ∃ v, (∀ rounds, execAll I rounds new w' = some (.finished, v)) ∧ Alike w v ∧
      AllKept none I w.store v.store xs es := by
  obtain ⟨τ', hFills, hAll⟩ := h.exists_allKept (.inr rfl) hxs I hAlike.store
  have hAgree := hAlike.store.trans (h.agree hFills)
  refine ⟨⟨τ', w'.events⟩, fun rounds => ?_, ⟨hAgree, hAlike.events⟩, hAll τ' hAgree fun _ _ => rfl⟩
  rw [← framedAll_none new]
  exact hFills.run rounds w'.events

theorem Turns.mirrors
    (hn : ∀ I : Interpretation, I.lists = .together → CallsIgnoreTemporaries I → ∀ rounds w v,
      Alike w v → AllKept none I w.store v.store xs es →
        Matches Alike (exec I rounds n w) (exec I rounds n' v)) (hRest : Mirrors ns out) :
    Mirrors (n :: ns) (new ++ n' :: out) := by
  intro I hLists hCalls rounds w w' hAlike
  obtain ⟨v, hRun, hAlike', hKept⟩ := h.exists_prepared hxs I hAlike
  rw [execAll_append, hRun rounds]
  change Matches Alike (execAll I rounds (n :: ns) w) (execAll I rounds (n' :: out) v)
  rw [execAll, execAll]
  exact (hn I hLists hCalls rounds w v hAlike' hKept).andThen fun _ _ hNext =>
    hRest I hLists hCalls rounds _ _ hNext

end

/-- Flat statements do what the statements did. -/
theorem Becomes.mirrors (h : Becomes inFunction ns out)
    (hns : ∀ n ∈ ns, n.isStatement = true ∧ n.callsAreStatements = true) : Mirrors ns out := by
  induction h with
  | nil =>
    intro I _ _ rounds w w' hAlike
    simp only [execAll]
    exact .finished hAlike
  | @passed n ns out hPassed _ ih =>
    obtain ⟨hn, hRest⟩ := List.forall_mem_cons.mp hns
    intro I hLists hCalls rounds w w' hAlike
    rw [execAll, execAll]
    refine Matches.andThen (R := Alike) ?_ fun _ _ hNext => ih hRest I hLists hCalls rounds _ _ hNext
    cases n with
    | comment | empty | globals => exact .finished hAlike
    | ret span e =>
      cases e with
      | absent => exact .returned hAlike
      | _ => cases hPassed
    | absent | block | assign | call | branch | loop => cases hPassed
    | _ => cases hn.1
  | block _ _ ihStmts ih =>
    obtain ⟨hn, hRest⟩ := List.forall_mem_cons.mp hns
    simp only [Node.isStatement, Node.callsAreStatements, Bool.and_eq_true, Node.areStatements_iff,
      Node.callsAreStatementsIn_iff] at hn
    intro I hLists hCalls rounds w w' hAlike
    rw [execAll, execAll, exec, exec]
    refine (ihStmts (fun m hm => ⟨hn.1.2 m hm, hn.2 m hm⟩) I hLists hCalls rounds w w' hAlike).andThen ?_
    exact fun _ _ hNext => ih hRest I hLists hCalls rounds _ _ hNext
  | assign _ hTurns _ ih =>
    obtain ⟨hn, hRest⟩ := List.forall_mem_cons.mp hns
    simp only [Node.isStatement, Node.callsAreStatements, Bool.and_eq_true] at hn
    refine hTurns.mirrors (by simp [hn]) ?_ (ih hRest)
    rintro I hLists - rounds w v hAlike ⟨hPlace, hValue, -⟩
    have hPlace := (hPlace hn.1.1.1).place
    simp only [KeptAt, framed_none] at hPlace hValue
    simp only [exec, Meaning.assign, hLists, hPlace, hValue]
    exact .finished ⟨agree_put hAlike.store _ _, hAlike.events⟩
  | decide hRhs hTurns _ ih =>
    obtain ⟨hn, hRest⟩ := List.forall_mem_cons.mp hns
    simp only [Node.isStatement, Node.callsAreStatements, Bool.and_eq_true] at hn
    refine hTurns.mirrors (by simp [hn]) ?_ (ih hRest)
    rintro I hLists - rounds w v hAlike ⟨hPlace, hHolds, -⟩
    have hPlace := (hPlace hn.1.1.1).place
    have hValue := value_of_isComparison none I w.store hRhs
    simp only [KeptAt, framed_none] at hPlace hHolds hValue
    rw [exec_assignTruth, hPlace, hHolds, exec, assign_of_value hValue]
    exact .finished ⟨agree_put hAlike.store _ (.text _), hAlike.events⟩
  | call hTurns _ ih =>
    obtain ⟨hn, hRest⟩ := List.forall_mem_cons.mp hns
    simp only [Node.isStatement, Node.isExpression, Node.callsAreStatements, Bool.and_eq_true,
      Node.areExpressions_iff, Node.areCallFree_iff] at hn
    refine hTurns.mirrors (List.forall_mem_map.mpr fun a ha => ⟨hn.1.2 a ha, hn.2 a ha⟩) ?_ (ih hRest)
    intro I _ hCalls rounds w v hAlike hKept
    have hTexts := texts_eq_of_allKept (.inl rfl) hKept
    simp only [Function.comp_def, framed_none] at hTexts
    simp only [exec, World.call, hTexts, hAlike.events]
    exact .finished ⟨hCalls _ _ _ hAlike.store, rfl⟩
  | branch hTurns _ _ _ ihThen ihElse ih =>
    obtain ⟨hn, hRest⟩ := List.forall_mem_cons.mp hns
    simp only [Node.isStatement, Node.callsAreStatements, Bool.and_eq_true, Bool.or_eq_true] at hn
    refine hTurns.mirrors (by simp [hn]) ?_ (ih hRest)
    rintro I hLists hCalls rounds w v hAlike ⟨hHolds, -⟩
    simp only [KeptAt, framed_none] at hHolds
    simp only [exec, hHolds]
    split
    · exact (ihThen (forall_bodyStatements (.inr ⟨hn.1.1.2, hn.2.1.2⟩))).gathered hLists hCalls rounds
        hAlike
    · exact (ihElse (forall_bodyStatements (hn.1.2.imp_right fun h => ⟨h, hn.2.2⟩))).gathered hLists
        hCalls rounds hAlike
  | @loop span cond cond' body new stmts ns out hTurns _ _ ihBody ih =>
    obtain ⟨hn, hRest⟩ := List.forall_mem_cons.mp hns
    simp only [Node.isStatement, Node.callsAreStatements, Bool.and_eq_true] at hn
    have hCond : ∀ x ∈ [(Position.condition, cond)], x.2.isExpression = true ∧ x.2.isCallFree = true :=
      List.forall_mem_singleton.mpr ⟨hn.1.1, hn.2.1⟩
    refine hTurns.mirrors hCond ?_ (ih hRest)
    intro I hLists hCalls rounds w v hAlike hKept
    rw [exec, exec]
    refine matches_iterate
      (R := fun w v => Alike w v ∧ AllKept none I w.store v.store [(.condition, cond)] [cond']) ?_ ?_
      rounds ⟨hAlike, hKept⟩
    · rintro w v ⟨hAlike, hHolds, -⟩
      simp only [KeptAt, framed_none] at hHolds
      exact ⟨hAlike, hHolds⟩
    · rintro w v ⟨hAlike, -⟩
      have hRun := ihBody (List.forall_mem_singleton.mpr ⟨hn.1.2, hn.2.2⟩) I hLists hCalls rounds w v
        hAlike
      rw [execAll_singleton] at hRun
      rw [exec_single, execAll_append]
      -- The round of the original ends here; the flat one still prepares the next test.
      refine hRun.andThen_right fun w₁ v₁ hAlike₁ => ?_
      obtain ⟨v₂, hRun₂, hNext⟩ := hTurns.exists_prepared hCond I hAlike₁
      exact ⟨v₂, hRun₂ rounds, hNext⟩
  | ret hTurns _ ih =>
    obtain ⟨hn, hRest⟩ := List.forall_mem_cons.mp hns
    obtain ⟨hPresent, hPresent'⟩ := hTurns.isAbsent
    rw [List.forall_mem_singleton] at hPresent hPresent'
    simp only [Node.isStatement, Node.callsAreStatements, hPresent, Bool.false_or] at hn
    refine hTurns.mirrors (List.forall_mem_singleton.mpr hn) ?_ (ih hRest)
    rintro I _ _ rounds w v hAlike ⟨hValue, -⟩
    simp only [KeptAt, framed_none] at hValue
    simp only [exec, hPresent, hPresent', hValue]
    exact .returned hAlike

end BatchCompiler.Syntax.Flattening
