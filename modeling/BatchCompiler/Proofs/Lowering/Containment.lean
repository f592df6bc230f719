import BatchCompiler.Proofs.Lowering.Labels
import BatchCompiler.Proofs.Meaning.Containment

/-!
# Where the loops of a program stand

The jump back to a loop stands inside that loop, and the label of a loop is followed by its test. The
jumps over the functions lead to labels that stand in no conditional.
-/

namespace BatchCompiler.Target

mutual

theorem Stmt.isSome_after? (spill : Bool) (label : String) (row : Nat) : (s : Stmt) →
    (s.after? spill label row).isSome = s.hasLabel label
  | .label name => by
    rw [Stmt.after?, Stmt.hasLabel_label]
    split <;> simp_all
  | .whenTrue c body => isSome_after? spill label (row + 1) body
  | .choose c thenBody elseBody => by
    rw [Stmt.after?, Stmt.hasLabel_choose, ← isSome_after? spill label (row + 1) thenBody]
    cases after? spill label (row + 1) thenBody with
    | some inner => rfl
    | none => exact isSome_after? spill label _ elseBody
  | .absent | .raw _ | .comment _ | .jump _ | .setText .. | .setNumber .. | .call .. => rfl

theorem isSome_after? (spill : Bool) (label : String) (row : Nat) : (code : List Stmt) →
    (after? spill label row code).isSome = hasLabel label code
  | [] => rfl
  | s :: rest => by
    rw [after?, hasLabel_cons, ← Stmt.isSome_after? spill label row s]
    cases s.after? spill label row with
    | some inner => rfl
    | none => exact isSome_after? spill label _ rest

end

theorem after?_append (spill : Bool) (label : String) (row : Nat) (a b : List Stmt) :
    after? spill label row (a ++ b) =
      match after? spill label row a with
      | some inner => some (inner ++ numbered (row + height a) b)
      | none => after? spill label (row + height a) b := by
  induction a generalizing row with
  | nil => rfl
  | cons s rest ih =>
    simp only [List.cons_append, after?, ih, height, ← Nat.add_assoc]
    cases s.after? spill label row with
    | some inner => simp only [numbered_append, List.append_assoc]
    | none => rfl

end BatchCompiler.Target

namespace BatchCompiler.Lowering

open Target

variable {k k' row : Nat} {T : List Stmt} {label : String}

theorem Looped.returns (h : Looped k T k') (hJump : Stmt.jump label ∈ T) : label = endOfFile := by
  induction h with
  | nil => cases hJump
  | plain hs _ ih =>
    rcases List.mem_cons.mp hJump with rfl | hJump
    · simpa [isPlain] using hs
    · exact ih hJump
  | whenTrue _ _ _ ih | choose _ _ _ _ _ ih =>
    rcases List.mem_cons.mp hJump with hJump | hJump
    · cases hJump
    · exact ih hJump
  | loop _ _ _ ih =>
    rcases List.mem_cons.mp hJump with hJump | hJump
    · cases hJump
    rcases List.mem_cons.mp hJump with hJump | hJump
    · cases hJump
    · exact ih hJump

/-- The statements hold loops numbered from `k` up to but not including `k'`. They jump to no other
loops, and to a loop inside an else part from there only. -/
structure Enclosed (k : Nat) (P : List Numbered) (k' : Nat) : Prop where
  le : k ≤ k'
  returns : ∀ x ∈ P, ∀ body lo hi, ElsePart x body lo hi →
    ∀ label, Stmt.jump label ∈ body → label = endOfFile
  label : ∀ x ∈ P, ∀ body lo hi, ElsePart x body lo hi → ∀ name ∈ labelsOf body,
    ∃ i, k ≤ i ∧ i < k' ∧ name = labelName i
  jump : ∀ y ∈ P, ∀ i, y.stmt = .jump (labelName i) → k ≤ i ∧ i < k'
  closed : ∀ x ∈ P, ∀ body lo hi, ElsePart x body lo hi →
    ∀ y ∈ P, ∀ name, y.stmt = .jump name → name ∈ labelsOf body → lo ≤ y.row ∧ y.row < hi

theorem enclosed_nil (k : Nat) : Enclosed k [] k :=
  ⟨Nat.le_refl k, nofun, nofun, nofun, nofun⟩

theorem Enclosed.append {k₁ : Nat} {P Q : List Numbered} (hP : Enclosed k P k₁)
    (hQ : Enclosed k₁ Q k') : Enclosed k (P ++ Q) k' := by
  have hLe := hP.le
  have hLe' := hQ.le
  refine ⟨by omega, ?_, ?_, ?_, ?_⟩
  · exact List.forall_mem_append.mpr ⟨hP.returns, hQ.returns⟩
  · intro x hx body lo hi hElse name hName
    rcases List.mem_append.mp hx with hx | hx
    · obtain ⟨i, _, _, hi⟩ := hP.label x hx body lo hi hElse name hName
      exact ⟨i, by omega, by omega, hi⟩
    · obtain ⟨i, _, _, hi⟩ := hQ.label x hx body lo hi hElse name hName
      exact ⟨i, by omega, by omega, hi⟩
  · intro y hy i hJump
    rcases List.mem_append.mp hy with hy | hy
    · have := hP.jump y hy i hJump
      omega
    · have := hQ.jump y hy i hJump
      omega
  · intro x hx body lo hi hElse y hy name hJump hName
    rcases List.mem_append.mp hx with hx | hx
    · rcases List.mem_append.mp hy with hy | hy
      · exact hP.closed x hx body lo hi hElse y hy name hJump hName
      · obtain ⟨i, _, _, rfl⟩ := hP.label x hx body lo hi hElse name hName
        have := hQ.jump y hy i hJump
        omega
    · rcases List.mem_append.mp hy with hy | hy
      · obtain ⟨i, _, _, rfl⟩ := hQ.label x hx body lo hi hElse name hName
        have := hP.jump y hy i hJump
        omega
      · exact hQ.closed x hx body lo hi hElse y hy name hJump hName

theorem enclosed_single {s : Stmt} (hElse : ∀ c a b, s ≠ .choose c a b)
    (hJump : ∀ i, s ≠ .jump (labelName i)) (row k : Nat) : Enclosed k [⟨row, s⟩] k := by
  have hNone : ∀ y ∈ [(⟨row, s⟩ : Numbered)], ∀ body lo hi, ¬ ElsePart y body lo hi := by
    rintro y hy body lo hi ⟨⟨c, a, hStmt, _⟩, _⟩
    rw [List.mem_singleton.mp hy] at hStmt
    exact hElse c a body hStmt
  refine ⟨Nat.le_refl k, ?_, ?_, ?_, ?_⟩
  · exact fun y hy body lo hi h => (hNone y hy body lo hi h).elim
  · exact fun y hy body lo hi h => (hNone y hy body lo hi h).elim
  · intro y hy i hStmt
    rw [List.mem_singleton.mp hy] at hStmt
    exact absurd hStmt (hJump i)
  · exact fun y hy body lo hi h => (hNone y hy body lo hi h).elim

theorem enclosed_isPlain {s : Stmt} (hs : isPlain s = true) (row k : Nat) :
    Enclosed k (s.parts row) k := by
  cases s with
  | label | whenTrue | choose => cases hs
  | jump target =>
    have hTarget : target = endOfFile := by simpa [isPlain] using hs
    refine enclosed_single (by rintro _ _ _ ⟨⟩) (fun i hJump => ?_) row k
    exact labelName_ne_endOfFile i ((Stmt.jump.inj hJump).symm.trans hTarget)
  | _ => exact enclosed_single (by rintro _ _ _ ⟨⟩) (by rintro _ ⟨⟩) row k

theorem Enclosed.cons_choose {k₁ : Nat} {c : Comparison} {A B : List Stmt}
    (hThen : Enclosed k (parts (row + 1) A) k₁) (hOther : Enclosed k₁ (parts (elseRow row A) B) k')
    (hBody : Looped k₁ B k') : Enclosed k ((Stmt.choose c A B).parts row) k' := by
  have hBoth := hThen.append hOther
  have hHead : ∀ body lo hi, ElsePart ⟨row, .choose c A B⟩ body lo hi →
      body = B ∧ lo = elseRow row A ∧ hi = elseRow row A + height B := by
    rintro body lo hi ⟨⟨_, _, hStmt, rfl⟩, rfl⟩
    cases hStmt
    exact ⟨rfl, rfl, rfl⟩
  have hLabels : ∀ name ∈ labelsOf B, ∃ i, k₁ ≤ i ∧ i < k' ∧ name = labelName i := by
    intro name hName
    rw [hBody.labelsOf_eq] at hName
    obtain ⟨i, hLe, hLt, rfl⟩ := mem_loopLabels.mp hName
    exact ⟨i, hLe, hLt, rfl⟩
  refine ⟨hBoth.le, ?_, ?_, ?_, ?_⟩
  · refine List.forall_mem_cons.mpr ⟨fun body lo hi hElse label hJump => ?_, hBoth.returns⟩
    obtain ⟨rfl, _⟩ := hHead body lo hi hElse
    exact hBody.returns hJump
  · refine List.forall_mem_cons.mpr ⟨fun body lo hi hElse name hName => ?_, hBoth.label⟩
    obtain ⟨rfl, _⟩ := hHead body lo hi hElse
    obtain ⟨i, hLe, hLt, hi⟩ := hLabels name hName
    exact ⟨i, Nat.le_trans hThen.le hLe, hLt, hi⟩
  · exact List.forall_mem_cons.mpr ⟨nofun, hBoth.jump⟩
  · intro x hx body lo hi hElse y hy name hJump hName
    rcases List.mem_cons.mp hy with rfl | hy
    · cases hJump
    rcases List.mem_cons.mp hx with rfl | hx
    · obtain ⟨rfl, rfl, rfl⟩ := hHead body lo hi hElse
      rcases List.mem_append.mp hy with hy | hy
      · obtain ⟨i, hLe, _, rfl⟩ := hLabels name hName
        have := (hThen.jump y hy i hJump).2
        omega
      · have hWithin := within_of_mem_parts _ hy
        exact ⟨hWithin.1, hWithin.lt⟩
    · exact hBoth.closed x hx body lo hi hElse y hy name hJump hName

theorem Enclosed.append_jump {P : List Numbered} (h : Enclosed (k + 1) P k') (row : Nat) :
    Enclosed k (P ++ [⟨row, .jump (labelName k)⟩]) k' := by
  have hLe := h.le
  have hOld : ∀ x ∈ P ++ [⟨row, .jump (labelName k)⟩], ∀ body lo hi, ElsePart x body lo hi →
      x ∈ P := by
    intro x hx body lo hi hElse
    rcases List.mem_append.mp hx with hx | hx
    · exact hx
    · obtain ⟨⟨_, _, hStmt, _⟩, _⟩ := hElse
      rw [List.mem_singleton.mp hx] at hStmt
      cases hStmt
  refine ⟨by omega, ?_, ?_, ?_, ?_⟩
  · exact fun x hx body lo hi hElse => h.returns x (hOld x hx body lo hi hElse) body lo hi hElse
  · intro x hx body lo hi hElse name hName
    obtain ⟨i, _, hLt, hi⟩ := h.label x (hOld x hx body lo hi hElse) body lo hi hElse name hName
    exact ⟨i, by omega, hLt, hi⟩
  · intro y hy i hJump
    rcases List.mem_append.mp hy with hy | hy
    · have := h.jump y hy i hJump
      omega
    · rw [List.mem_singleton.mp hy] at hJump
      have := labelName_injective (Stmt.jump.inj hJump)
      omega
  · intro x hx body lo hi hElse y hy name hJump hName
    have hx := hOld x hx body lo hi hElse
    rcases List.mem_append.mp hy with hy | hy
    · exact h.closed x hx body lo hi hElse y hy name hJump hName
    · obtain ⟨i, _, _, rfl⟩ := h.label x hx body lo hi hElse name hName
      rw [List.mem_singleton.mp hy] at hJump
      have := labelName_injective (Stmt.jump.inj hJump)
      omega

theorem Looped.enclosed (h : Looped k T k') (row : Nat) : Enclosed k (parts row T) k' := by
  have hWhen : ∀ row c A k, Enclosed k [⟨row, .whenTrue c A⟩] k := fun row c A k =>
    enclosed_single (by rintro _ _ _ ⟨⟩) (by rintro _ ⟨⟩) row k
  induction h generalizing row with
  | nil => exact enclosed_nil _
  | plain hs _ ih => exact (enclosed_isPlain hs row _).append (ih _)
  | whenTrue _ _ ihBody ih => exact ((hWhen _ _ _ _).append (ihBody _)).append (ih _)
  | choose _ hElse _ ihThen ihElse ih =>
    exact (Enclosed.cons_choose (ihThen _) (ihElse _) hElse).append (ih _)
  | @loop c A T k k₁ k' hBody h ihBody ih =>
    have hLabel : Enclosed k [⟨row, .label (labelName k)⟩] k :=
      enclosed_single (by rintro _ _ _ ⟨⟩) (by rintro _ ⟨⟩) row k
    have hRound : Enclosed k (parts (row + 1 + 1) (A ++ [.jump (labelName k)])) k₁ := by
      rw [parts_append]
      exact (ihBody _).append_jump _
    exact hLabel.append (((hWhen _ _ _ _).append hRound).append (ih _))

theorem Looped.entered (h : Looped k T k') {spill : Bool} {code : List Numbered}
    (hFound : after? spill label row T = some code) :
    ∃ r c body rest, code = ⟨r, .whenTrue c body⟩ :: rest := by
  have hFront : ∀ {inner more : List Numbered},
      (∃ r c body rest, inner = ⟨r, .whenTrue c body⟩ :: rest) →
      ∃ r c body rest, inner ++ more = ⟨r, .whenTrue c body⟩ :: rest := by
    rintro _ more ⟨r, c, body, rest, rfl⟩
    exact ⟨r, c, body, rest ++ more, rfl⟩
  induction h generalizing row code with
  | nil => cases hFound
  | @plain s T k k' hs _ ih =>
    have hNone : s.after? spill label row = none := by
      cases s with
      | label | whenTrue | choose => cases hs
      | _ => rfl
    rw [after?, hNone] at hFound
    exact ih hFound
  | whenTrue _ _ ihBody ih =>
    rw [after?, Stmt.after?] at hFound
    split at hFound
    · next inner hInner =>
      cases hFound
      exact hFront (ihBody hInner)
    · exact ih hFound
  | choose _ _ _ ihThen ihElse ih =>
    rw [after?, Stmt.after?] at hFound
    split at hFound
    · next inner hInner =>
      cases hFound
      split at hInner
      · next inner' hInner' =>
        cases hInner
        exact hFront (hFront (ihThen hInner'))
      · exact hFront (ihElse hInner)
    · exact ih hFound
  | loop _ _ ihBody ih =>
    rw [after?] at hFound
    split at hFound
    · next inner hInner =>
      cases hFound
      rw [Stmt.after?] at hInner
      split at hInner
      · cases hInner
        exact ⟨_, _, _, _, rfl⟩
      · cases hInner
    · rw [after?, Stmt.after?, after?_append] at hFound
      split at hFound
      · next inner hInner =>
        cases hFound
        split at hInner
        · next inner' hInner' =>
          cases hInner
          exact hFront (hFront (ihBody hInner'))
        · cases hInner
      · exact ih hFound

/-- A program: pieces of lowered code, and between them labels that are no labels of loops and jumps
that lead to no loop. -/
inductive Laid : Nat → List Stmt → Nat → Prop where
  | nil {k : Nat} : Laid k [] k
  | piece {T P : List Stmt} {k k₁ k' : Nat} (hPiece : Looped k T k₁) (h : Laid k₁ P k') :
    Laid k (T ++ P) k'
  | jump {target : String} {P : List Stmt} {k k' : Nat} (hTarget : ∀ i, target ≠ labelName i)
    (h : Laid k P k') : Laid k (.jump target :: P) k'
  | label {name : String} {P : List Stmt} {k k' : Nat} (h : Laid k P k') :
    Laid k (.label name :: P) k'

theorem Assembled.laid {names : List String} {F : List Stmt} (h : Assembled k names F k') :
    Laid k F k' := by
  induction h with
  | nil => exact .nil
  | @cons name params names body F k k₁ k' hBody _ ih =>
    have hInner := hBody.innerCode params
    rw [assemble_eq]
    simp only [List.cons_append, List.append_assoc, List.nil_append]
    exact .jump (fun i => endLabel_ne_labelName name i) (.label (.piece hInner (.label ih)))

theorem Laid.enclosed {P : List Stmt} (h : Laid k P k') (row : Nat) :
    Enclosed k (parts row P) k' := by
  induction h generalizing row with
  | nil => exact enclosed_nil _
  | piece hPiece _ ih =>
    rw [parts_append]
    exact (hPiece.enclosed row).append (ih _)
  | @jump target _ k _ hTarget _ ih =>
    have hJump : Enclosed k [⟨row, .jump target⟩] k :=
      enclosed_single (by rintro _ _ _ ⟨⟩) (fun i hi => hTarget i (Stmt.jump.inj hi)) row k
    exact hJump.append (ih _)
  | @label name _ k _ _ ih =>
    have hLabel : Enclosed k [⟨row, .label name⟩] k :=
      enclosed_single (by rintro _ _ _ ⟨⟩) (by rintro _ ⟨⟩) row k
    exact hLabel.append (ih _)

theorem Laid.entered {P : List Stmt} (h : Laid k P k') {code code' : List Numbered}
    (hFound : after? false label row P = some code)
    (hFound' : after? true label row P = some code') :
    code' = code ∨ ∃ r c body rest, code = ⟨r, .whenTrue c body⟩ :: rest := by
  induction h generalizing row code code' with
  | nil => cases hFound
  | @piece T P k k₁ k' hPiece _ ih =>
    rw [after?_append] at hFound hFound'
    cases hInner : after? false label row T with
    | some inner =>
      rw [hInner] at hFound
      cases hFound
      obtain ⟨r, c, body, rest, rfl⟩ := hPiece.entered hInner
      exact .inr ⟨r, c, body, _, rfl⟩
    | none =>
      rw [hInner] at hFound
      have hInner' : after? true label row T = none := by
        rw [← Option.not_isSome_iff_eq_none, isSome_after?, ← isSome_after? false, hInner]
        exact Bool.false_ne_true
      rw [hInner'] at hFound'
      exact ih hFound hFound'
  | jump _ _ ih => exact ih hFound hFound'
  | @label name P k k' _ ih =>
    rw [after?, Stmt.after?] at hFound hFound'
    split at hFound
    · next inner hInner =>
      rw [hInner] at hFound'
      left
      exact Option.some.inj (hFound'.symm.trans hFound)
    · next hNone =>
      rw [hNone] at hFound'
      exact ih hFound hFound'

theorem Laid.contained {p : Program} (h : Laid k p k') : Contained p where
  returns := (h.enclosed 0).returns
  closed x hx body lo hi hElse y hy label hJump hLabel :=
    (h.enclosed 0).closed x hx body lo hi hElse y hy label hJump ((hasLabel_iff body).mp hLabel)
  entered _ _ _ := h.entered

end BatchCompiler.Lowering
