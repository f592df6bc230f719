import BatchCompiler.Proofs.Lowering.Framing
import BatchCompiler.Proofs.Meaning.Parts

/-!
# The loops of lowered code

Lowered code jumps for two reasons only: to return, and at the end of a loop to the label in front of
it. The labels are numbered, so that parts of the code that have no numbers in common do not jump into
each other.
-/

namespace BatchCompiler.Lowering

open Target

variable {k k' : Nat} {T A : List Stmt}

def isPlain : Stmt → Bool
  | .jump target => target == endOfFile
  | .label _ | .whenTrue .. | .choose .. => false
  | _ => true

/-- `Looped k T k'` says that the loops of `T` are numbered from `k` up to but not including `k'`. -/
inductive Looped : Nat → List Stmt → Nat → Prop where
  | nil {k : Nat} : Looped k [] k
  | plain {s : Stmt} {T : List Stmt} {k k' : Nat} (hs : isPlain s = true) (h : Looped k T k') :
    Looped k (s :: T) k'
  | whenTrue {c : Comparison} {A T : List Stmt} {k k₁ k' : Nat} (hBody : Looped k A k₁)
    (h : Looped k₁ T k') : Looped k (.whenTrue c A :: T) k'
  | choose {c : Comparison} {A B T : List Stmt} {k k₁ k₂ k' : Nat} (hThen : Looped k A k₁)
    (hElse : Looped k₁ B k₂) (h : Looped k₂ T k') : Looped k (.choose c A B :: T) k'
  | loop {c : Comparison} {A T : List Stmt} {k k₁ k' : Nat} (hBody : Looped (k + 1) A k₁)
    (h : Looped k₁ T k') :
    Looped k (.label (labelName k) :: .whenTrue c (A ++ [.jump (labelName k)]) :: T) k'

theorem Looped.le (h : Looped k T k') : k ≤ k' := by
  induction h <;> omega

theorem Looped.append {k₁ : Nat} (hA : Looped k A k₁) (hT : Looped k₁ T k') :
    Looped k (A ++ T) k' := by
  induction hA with
  | nil => exact hT
  | plain hs _ ih => exact .plain hs (ih hT)
  | whenTrue hBody _ _ ih => exact .whenTrue hBody (ih hT)
  | choose hThen hElse _ _ _ ih => exact .choose hThen hElse (ih hT)
  | loop hBody _ _ ih => exact .loop hBody (ih hT)

theorem looped_of_isPlain (h : ∀ s ∈ A, isPlain s = true) (k : Nat) : Looped k A k := by
  induction A with
  | nil => exact .nil
  | cons s rest ih =>
    obtain ⟨hs, hRest⟩ := List.forall_mem_cons.mp h
    exact .plain hs (ih hRest)

theorem isPlain_of_isAction {s : Stmt} (h : isAction s = true) : isPlain s = true := by
  cases s with
  | setText | setNumber | call => rfl
  | _ => cases h

theorem Lowered.looped {c : Context} {ns : List Node} (h : Lowered c ns k T k') :
    Looped k T k' := by
  have hActions : ∀ {A : List Stmt} (k : Nat), (∀ s ∈ A, isAction s = true) → Looped k A k :=
    fun k hA => looped_of_isPlain (fun s hs => isPlain_of_isAction (hA s hs)) k
  induction h with
  | nil => exact .nil
  | skip _ _ ih => exact ih
  | comment _ ih | ret _ ih => exact .plain rfl ih
  | block _ _ ihBody ih => exact ihBody.append ih
  | call _ _ ih => exact .plain (isPlain_of_isAction (isAction_callStmt _ _ _)) ih
  | assign _ hRhs _ ih => exact (hActions _ (isAction_of_lowerAssign hRhs)).append ih
  | branch _ _ _ ihThen ih => exact .whenTrue ihThen ih
  | branchElse _ _ _ _ _ ihThen ihElse ih => exact .choose ihThen ihElse ih
  | loop _ _ _ ihBody ih => exact .loop ihBody ih
  | retValue _ _ hValue _ ih =>
    exact (hActions _ (isAction_of_lowerAssign hValue)).append (.plain rfl ih)

theorem isPlain_framed {s : Stmt} (hs : isPlain s = true) : isPlain s.framed = true := by
  cases s with
  | label | whenTrue | choose => cases hs
  | setText | setNumber | call => rfl
  | _ => exact hs

theorem Looped.framed (h : Looped k T k') : Looped k (Target.framed T) k' := by
  induction h with
  | nil => exact .nil
  | plain hs _ ih => exact .plain (isPlain_framed hs) ih
  | whenTrue _ _ ihBody ih => exact .whenTrue ihBody ih
  | choose _ _ _ ihThen ihElse ih => exact .choose ihThen ihElse ih
  | loop _ _ ihBody ih =>
    simp only [Target.framed, Stmt.framed, framed_append]
    exact .loop ihBody ih

theorem Looped.of_inFrame {T' : List Stmt} (h : Looped k T k') (hFrame : inFrame T = .ok T') :
    Looped k T' k' :=
  eq_framed T T' hFrame ▸ h.framed

end BatchCompiler.Lowering
