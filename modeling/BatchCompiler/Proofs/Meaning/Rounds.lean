import BatchCompiler.Proofs.Meaning.Tree
import BatchCompiler.Proofs.Syntax.Induction

/-!
# Bounds on rounds

A run that ends within a bound ends in the same way within every larger one. So the way in which
statements end does not depend on the bound that shows it.
-/

namespace BatchCompiler.Meaning

variable {m k : Nat} {I : Interpretation} {stmts : List Node}

def Result.LE (r r' : Result) : Prop :=
  ∀ x, r = some x → r' = some x

theorem Result.LE.refl (r : Result) : r.LE r :=
  fun _ h => h

theorem Result.andThen_le {r r' : Result} {f g : World → Result} (h : r.LE r')
    (hf : ∀ w, (f w).LE (g w)) : (r.andThen f).LE (r'.andThen g) := by
  intro x hx
  rcases r with _ | ⟨_ | v, w⟩
  · cases hx
  · rw [h _ rfl]
    exact hf w x hx
  · rw [h _ rfl]
    exact hx

theorem iterate_le {test : World → Bool} {body body' : World → Result} (hmk : m ≤ k)
    (hBody : ∀ w, (body w).LE (body' w)) (w : World) :
    (iterate test body m w).LE (iterate test body' k w) := by
  induction m generalizing k w with
  | zero =>
    intro x hx
    cases hx
  | succ m ih =>
    obtain ⟨k, rfl⟩ := Nat.exists_eq_add_of_le hmk
    rw [show m + 1 + k = (m + k) + 1 by omega]
    unfold iterate
    split
    · exact Result.andThen_le (hBody w) fun w => ih (Nat.le_add_right m k) w
    · exact Result.LE.refl _

theorem execAll_le_of_forall (h : ∀ n ∈ stmts, ∀ w, (exec I m n w).LE (exec I k n w)) (w : World) :
    (execAll I m stmts w).LE (execAll I k stmts w) := by
  induction stmts generalizing w with
  | nil => exact Result.LE.refl _
  | cons n rest ih =>
    simp only [execAll]
    exact Result.andThen_le (h n List.mem_cons_self w) fun w =>
      ih (fun x hx => h x (List.mem_cons_of_mem n hx)) w

theorem exec_le (I : Interpretation) (hmk : m ≤ k) (n : Node) (w : World) :
    (exec I m n w).LE (exec I k n w) := by
  induction n using Node.induction generalizing w with
  | block span stmts synthetic ih =>
    simp only [exec]
    exact execAll_le_of_forall ih w
  | branch span cond thenBody elseBody _ ihThen ihElse =>
    simp only [exec]
    split
    · exact ihThen w
    · exact ihElse w
  | loop span cond body _ ihBody =>
    simp only [exec]
    exact iterate_le hmk ihBody w
  | _ =>
    simp only [exec]
    exact Result.LE.refl _

theorem execAll_le (I : Interpretation) (hmk : m ≤ k) (stmts : List Node) (w : World) :
    (execAll I m stmts w).LE (execAll I k stmts w) :=
  execAll_le_of_forall (fun n _ => exec_le I hmk n) w

theorem Ends.unique {w : World} {r r' : Exit × World} (h : Ends I stmts w r)
    (h' : Ends I stmts w r') : r = r' := by
  obtain ⟨m, hm⟩ := h
  obtain ⟨k, hk⟩ := h'
  have hLeft := execAll_le I (Nat.le_max_left m k) stmts w r hm
  have hRight := execAll_le I (Nat.le_max_right m k) stmts w r' hk
  exact Option.some.inj (hLeft.symm.trans hRight)

end BatchCompiler.Meaning
