import BatchCompiler.Proofs.Meaning.Frames
import BatchCompiler.Proofs.Scope.Table
import BatchCompiler.Proofs.Text.Spelling
import BatchCompiler.Syntax.Flattening

/-!
# Temporaries

Stores that are equal but for temporaries, and what running a truth assignment does.
-/

namespace BatchCompiler.Syntax.Flattening

open Meaning

variable {m n : Nat} {σ τ υ : Store} {s s₁ s₂ s' : State} {span : Span} {I : Interpretation}
  {first rest rest' : List Node}

def temporaryName (number : Nat) : String := temporaryLead ++ Number.natText number

theorem startsWith_temporaryName (number : Nat) :
    Text.startsWith temporaryLead (temporaryName number) = true :=
  Text.startsWith_append _ _

theorem temporaryName_injective (h : temporaryName m = temporaryName n) : m = n :=
  Number.append_natText_injective h

/-- The stores are equal on every name that is not set aside for temporaries. -/
def Agree (σ τ : Store) : Prop :=
  ∀ l : Location, Text.startsWith temporaryLead l.name = false → σ l = τ l

theorem Agree.refl (σ : Store) : Agree σ σ := fun _ _ => rfl

theorem Agree.trans (h₁ : Agree σ τ) (h₂ : Agree τ υ) : Agree σ υ :=
  fun l hl => (h₁ l hl).trans (h₂ l hl)

theorem run_bind_of_ok {α β : Type} {m : Flat α} {k : α → Flat β} {a : α}
    (h : m.run s = .ok (a, s')) : (m >>= k).run s = (k a).run s' := by
  rw [StateT.run_bind, h]
  rfl

theorem run_items_func {name : String} {params : List Node} {body body' : Node}
    (hBody : (functionBody body).run { s with region := .function name } = .ok (body', s₁))
    (hRest : (items rest).run s₁ = .ok (rest', s₂)) :
    (items (.func span name params body :: rest)).run s =
      .ok (.func span name params body' :: rest', s₂) := by
  rw [items]
  have hEnter : (enter (.function name)).run s = .ok ((), { s with region := .function name }) :=
    rfl
  rw [run_bind_of_ok hEnter, run_bind_of_ok hBody, run_bind_of_ok hRest]
  rfl

theorem run_items_statement {n : Node} (hn : n.isFunc = false)
    (hFirst : (statement n).run { s with region := .top } = .ok (first, s₁))
    (hRest : (items rest).run s₁ = .ok (rest', s₂)) :
    (items (n :: rest)).run s = .ok (first ++ rest', s₂) := by
  have hItems : items (n :: rest) = (do
      enter .top
      let n ← statement n
      let rest ← items rest
      pure (n ++ rest)) := by
    cases n with
    | func => cases hn
    | _ => rfl
  have hEnter : (enter .top).run s = .ok ((), { s with region := .top }) := rfl
  rw [hItems, run_bind_of_ok hEnter, run_bind_of_ok hFirst, run_bind_of_ok hRest]
  rfl

theorem functionBody_eq (n : Node) :
    functionBody n = if n.isAbsent = true then pure .absent >>= pure
      else statement n >>= fun stmts => pure (single n.span stmts) >>= pure := by
  simp only [functionBody, pure_bind]

theorem assign_of_value {lhs rhs : Node} {s : String} (h : Meaning.value I σ rhs = .text s) :
    assign I σ lhs rhs = σ.set (Meaning.place I σ lhs) s := by
  have hText : ∀ n : Node, Meaning.value I σ n = .text s →
      assignInTurn I (fun τ => Meaning.place I τ lhs) σ n = σ.set (Meaning.place I σ lhs) s := by
    intro n hn
    cases n <;> simp_all [Meaning.value, assignInTurn]
  unfold assign
  split
  · rw [h, Store.put]
  · exact hText rhs h

theorem exec_assignTruth (I : Interpretation) (rounds : Nat) (span : Span) (cond place : Node)
    (w : World) :
    exec I rounds (assignTruth span cond place) w =
      some (.finished,
        ⟨w.store.set (Meaning.place I w.store place) (truthText (holds I w.store cond)),
          w.events⟩) := by
  have hAssign : ∀ b : Bool, assign I w.store place (.number span (if b then 1 else 0)) =
      w.store.set (Meaning.place I w.store place) (truthText b) := by
    intro b
    apply assign_of_value
    cases b <;> rfl
  rw [assignTruth, exec]
  cases hc : holds I w.store cond with
  | true => simpa [exec, execAll_singleton] using hAssign true
  | false => simpa [exec, execAll_singleton] using hAssign false

end BatchCompiler.Syntax.Flattening
