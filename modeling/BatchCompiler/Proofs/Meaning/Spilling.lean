import BatchCompiler.Proofs.Meaning.Parts
import BatchCompiler.Proofs.Meaning.Residue

/-!
# Spilling into else parts

A jump that leaves a then part either skips the else part or goes on with it. The difference is not
seen where the end of the then part is not reached, where the else part holds nothing but remarks, or
where it returns at once and nothing is left to do.
-/

namespace BatchCompiler.Target

open Meaning

variable {code code' : List Numbered}

mutual

/-- Some outcomes of the tests lead to what follows the statement, without a jump. -/
def Stmt.falls : Stmt → Bool
  | .jump _ => false
  | .choose _ thenBody elseBody => falls thenBody || falls elseBody
  | _ => true

def falls : List Stmt → Bool
  | [] => true
  | s :: rest => s.falls && falls rest

end

def Stmt.silent : Stmt → Bool
  | .absent | .comment _ | .label _ => true
  | _ => false

def returnsAtOnce : List Stmt → Bool
  | [] => false
  | .jump target :: _ => target == endOfFile
  | s :: rest => s.silent && returnsAtOnce rest

/-- Nobody sees that the second code is run in place of the first, which differs from it by else
parts that are skipped. -/
inductive Unseen (p : Program) : List Numbered → List Numbered → Prop where
  | nil : Unseen p [] []
  | cons {x : Numbered} {code code' : List Numbered} (h : x.stmt.falls = true → Unseen p code code') :
    Unseen p (x :: code) (x :: code')
  | silent {row : Nat} {body : List Stmt} {code code' : List Numbered}
    (hBody : ∀ s ∈ body, s.silent = true) (h : Unseen p code code') :
    Unseen p code (numbered row body ++ code')
  | returns {row : Nat} {body : List Stmt} {code code' : List Numbered}
    (hBody : returnsAtOnce body = true) (h : Rests (moveNumbered false p) code) :
    Unseen p code (numbered row body ++ code')

section

variable {p : Program}

variable {body : List Stmt} {spill : Bool}

theorem unseen_refl (code : List Numbered) : Unseen p code code := by
  induction code with
  | nil => exact .nil
  | cons x rest ih => exact .cons fun _ => ih

theorem unseen_append (h : falls body = true → Unseen p code code') (row : Nat) :
    Unseen p (numbered row body ++ code) (numbered row body ++ code') := by
  induction body generalizing row with
  | nil => exact h rfl
  | cons s rest ih =>
    refine .cons fun hs => ih (fun hRest => h ?_) (row + s.height)
    rw [falls, hRest, Bool.and_true]
    exact hs

theorem moveNumbered_silent {s : Stmt} (h : s.silent = true) (row : Nat) (code : List Numbered) :
    moveNumbered spill p (⟨row, s⟩ :: code) = .go code := by
  cases s with
  | absent | comment | label => rfl
  | _ => cases h

theorem quietly_silent (h : ∀ s ∈ body, s.silent = true) (row : Nat) (code : List Numbered) :
    Quietly (moveNumbered spill p) body.length (numbered row body ++ code) code := by
  induction body generalizing row with
  | nil => exact .zero
  | cons s rest ih =>
    obtain ⟨hs, hRest⟩ := List.forall_mem_cons.mp h
    exact .succ (moveNumbered_silent hs row _) (ih hRest (row + s.height))

theorem rests_of_returnsAtOnce (h : returnsAtOnce body = true) (row : Nat) (code : List Numbered) :
    Rests (moveNumbered spill p) (numbered row body ++ code) := by
  induction body generalizing row with
  | nil => cases h
  | cons s rest ih =>
    cases s with
    | jump target =>
      have hTarget : target = endOfFile := by simpa [returnsAtOnce] using h
      exact ⟨0, _, .zero, if_pos hTarget⟩
    | absent | comment | label =>
      obtain ⟨k, t', hk, hStop⟩ := ih h (row + 1)
      exact ⟨k + 1, t', .succ rfl hk, hStop⟩
    | _ => cases h

end

/-- The second code is the first with the else parts that are skipped in it. -/
inductive Spilled (p : Program) : List Numbered → List Numbered → Prop where
  | nil : Spilled p [] []
  | cons {x : Numbered} {code code' : List Numbered} (h : Spilled p code code') :
    Spilled p (x :: code) (x :: code')
  | spill {x : Numbered} {body : List Stmt} {lo hi : Nat} {code code' : List Numbered}
    (hx : x ∈ parts 0 p) (hElse : ElsePart x body lo hi) (hRows : ∀ y ∈ code, hi ≤ y.row)
    (hParts : code ⊆ parts 0 p) (h : Spilled p code code') :
    Spilled p code (numbered lo body ++ code')

def SpilledBefore (p : Program) (row : Nat) (code code' : List Numbered) : Prop :=
  ∀ rest rest', Spilled p rest rest' → (∀ y ∈ rest, row ≤ y.row) → rest ⊆ parts 0 p →
    Spilled p (code ++ rest) (code' ++ rest')

section

variable {p : Program}

theorem spilled_append (h : Spilled p code code') (front : List Numbered) :
    Spilled p (front ++ code) (front ++ code') := by
  induction front with
  | nil => exact h
  | cons x rest ih => exact .cons ih

mutual

theorem Stmt.rel_after? (label : String) (row : Nat) : (s : Stmt) → s.parts row ⊆ parts 0 p →
    Option.Rel (SpilledBefore p (row + s.height)) (s.after? false label row) (s.after? true label row)
  | .label name, _ => by
    simp only [Stmt.after?]
    split
    · exact .some fun rest rest' hRest _ _ => hRest
    · exact .none
  | .whenTrue c body, hParts => by
    have hBody := rel_after? label (row + 1) body (List.cons_subset.mp hParts).2
    simp only [Stmt.after?]
    generalize after? false label (row + 1) body = found at hBody ⊢
    generalize after? true label (row + 1) body = found' at hBody ⊢
    cases hBody with
    | none => exact .none
    | some h =>
      refine .some fun rest rest' hRest hRows => h rest rest' hRest fun y hy => ?_
      have hRow := hRows y hy
      rw [Stmt.height] at hRow
      omega
  | .choose c thenBody elseBody, hParts => by
    obtain ⟨hSelf, hBodies⟩ := List.cons_subset.mp hParts
    obtain ⟨hThenParts, hElseParts⟩ := List.append_subset.mp hBodies
    have hThen := rel_after? label (row + 1) thenBody hThenParts
    have hElse := rel_after? label (elseRow row thenBody) elseBody hElseParts
    have hHeight : elseRow row thenBody + height elseBody ≤
        row + (Stmt.choose c thenBody elseBody).height := by
      rw [Stmt.height, elseRow]
      omega
    have hRow : row + 1 + height thenBody ≤ elseRow row thenBody := by
      rw [elseRow]
      omega
    simp only [Stmt.after?]
    generalize after? false label (row + 1) thenBody = found at hThen ⊢
    generalize after? true label (row + 1) thenBody = found' at hThen ⊢
    cases hThen with
    | some h =>
      refine .some fun rest rest' hRest hRows hRestParts => ?_
      simp only [Bool.false_eq_true, if_false, if_true, List.append_nil, List.append_assoc]
      have hAfter : ∀ y ∈ rest, elseRow row thenBody + height elseBody ≤ y.row :=
        fun y hy => Nat.le_trans hHeight (hRows y hy)
      refine h rest _ (.spill hSelf ⟨⟨c, thenBody, rfl, rfl⟩, rfl⟩ hAfter hRestParts hRest) ?_ hRestParts
      intro y hy
      have := hAfter y hy
      omega
    | none =>
      dsimp only
      generalize after? false label (elseRow row thenBody) elseBody = found at hElse ⊢
      generalize after? true label (elseRow row thenBody) elseBody = found' at hElse ⊢
      cases hElse with
      | none => exact .none
      | some h =>
        exact .some fun rest rest' hRest hRows =>
          h rest rest' hRest fun y hy => Nat.le_trans hHeight (hRows y hy)
  | .absent, _ | .raw _, _ | .comment _, _ | .jump _, _ | .setText .., _ | .setNumber .., _
  | .call .., _ => .none

theorem rel_after? (label : String) (row : Nat) : (code : List Stmt) → parts row code ⊆ parts 0 p →
    Option.Rel (SpilledBefore p (row + height code)) (after? false label row code)
      (after? true label row code)
  | [], _ => .none
  | s :: others, hParts => by
    obtain ⟨hFirstParts, hOtherParts⟩ := List.append_subset.mp hParts
    have hFirst := Stmt.rel_after? label row s hFirstParts
    have hOthers := rel_after? label (row + s.height) others hOtherParts
    simp only [after?]
    generalize s.after? false label row = found at hFirst ⊢
    generalize s.after? true label row = found' at hFirst ⊢
    cases hFirst with
    | some h =>
      refine .some fun rest rest' hRest hRows hRestParts => ?_
      rw [List.append_assoc, List.append_assoc]
      refine h _ _ (spilled_append hRest _) ?_ ?_
      · refine List.forall_mem_append.mpr ⟨fun y hy => le_of_mem_numbered hy, fun y hy => ?_⟩
        have hRow := hRows y hy
        rw [height] at hRow
        omega
      · exact List.append_subset.mpr ⟨List.Subset.trans (numbered_subset_parts _ _) hOtherParts, hRestParts⟩
    | none =>
      rw [height, ← Nat.add_assoc]
      exact hOthers

end

theorem exists_after?_true {label : String} (h : after? false label 0 p = some code) :
    ∃ code', after? true label 0 p = some code' ∧ Spilled p code code' := by
  have hRel := rel_after? label 0 p (List.Subset.refl (parts 0 p))
  rw [h] at hRel
  cases hFound : after? true label 0 p with
  | none =>
    rw [hFound] at hRel
    cases hRel
  | some code' =>
    rw [hFound] at hRel
    cases hRel with
    | some hBefore =>
      have hSpilled := hBefore [] [] .nil nofun (List.nil_subset _)
      rw [List.append_nil, List.append_nil] at hSpilled
      exact ⟨code', rfl, hSpilled⟩

theorem after?_true_eq_none {label : String} (h : after? false label 0 p = none) :
    after? true label 0 p = none := by
  have hRel := rel_after? label 0 p (List.Subset.refl (parts 0 p))
  rw [h] at hRel
  cases hFound : after? true label 0 p with
  | none => rfl
  | some code' =>
    rw [hFound] at hRel
    cases hRel

end

abbrev SameRuns (p : Program) (code code' : List Numbered) : Prop :=
  SameDeeds Eq Eq (moveNumbered false p) (moveNumbered true p) code code'

/-- None of the else parts that jumps lead into is seen, neither at the start nor at a jump that is
reached from there. -/
structure Unspilled (p : Program) (start start' : List Numbered) : Prop where
  entry : Unseen p start start'
  jumps : ∀ row label rest code code',
    Reaches (moveNumbered false p) start (⟨row, .jump label⟩ :: rest) →
    label ≠ endOfFile → after? false label 0 p = some code → after? true label 0 p = some code' →
    Unseen p code code'

section

variable {p : Program}

variable {spill : Bool} {label : String} {code start start' : List Numbered}

theorem moveNumbered_jump (hLabel : label ≠ endOfFile) (h : after? spill label 0 p = some code)
    (row : Nat) (rest : List Numbered) :
    moveNumbered spill p (⟨row, .jump label⟩ :: rest) = .go code := by
  simp only [moveNumbered, moveNumberedBy, if_neg hLabel, h]

theorem moveNumbered_jump_stop (h : label = endOfFile ∨ after? spill label 0 p = none) (row : Nat)
    (rest : List Numbered) : moveNumbered spill p (⟨row, .jump label⟩ :: rest) = .stop := by
  simp only [moveNumbered, moveNumberedBy]
  split
  · rfl
  · next hEnd => rw [h.resolve_left hEnd]

theorem moveNumbered_jump_cases (spill : Bool) (p : Program) (row : Nat) (label : String)
    (rest : List Numbered) :
    moveNumbered spill p (⟨row, .jump label⟩ :: rest) = .stop ∨
      ∃ next, moveNumbered spill p (⟨row, .jump label⟩ :: rest) = .go next ∧ label ≠ endOfFile ∧
        after? spill label 0 p = some next := by
  by_cases hEnd : label = endOfFile
  · exact .inl (moveNumbered_jump_stop (.inl hEnd) row rest)
  cases hFound : after? spill label 0 p with
  | none => exact .inl (moveNumbered_jump_stop (.inr hFound) row rest)
  | some next => exact .inr ⟨next, moveNumbered_jump hEnd hFound row rest, hEnd, rfl⟩

theorem Unseen.answered (hAll : Unspilled p start start') (h : Unseen p code code')
    (hReach : Reaches (moveNumbered false p) start code) :
    (Rests (moveNumbered false p) code ∧ Rests (moveNumbered true p) code') ∨
    Answered Eq Eq (fun c c' => Reaches (moveNumbered false p) start c ∧ Unseen p c c')
      (moveNumbered true p) code' (moveNumbered false p code) := by
  induction h with
  | nil => exact .inr ⟨0, [], .zero, rfl⟩
  | silent hBody _ ih =>
    rcases ih hReach with ⟨hRests, hRests'⟩ | hAnswered
    · exact .inl ⟨hRests, hRests'.of_quietly (quietly_silent hBody _ _)⟩
    · exact .inr (hAnswered.of_quietly (quietly_silent hBody _ _))
  | returns hBody hRests => exact .inl ⟨hRests, rests_of_returnsAtOnce hBody _ _⟩
  | @cons x rest rest' hRest _ =>
    refine .inr ?_
    obtain ⟨row, s⟩ := x
    cases s with
    | jump label =>
      by_cases hEnd : label = endOfFile
      · rw [moveNumbered_jump_stop (.inl hEnd)]
        exact ⟨0, _, .zero, moveNumbered_jump_stop (.inl hEnd) _ _⟩
      · cases hFound : after? false label 0 p with
        | none =>
          rw [moveNumbered_jump_stop (.inr hFound)]
          exact ⟨0, _, .zero, moveNumbered_jump_stop (.inr (after?_true_eq_none hFound)) _ _⟩
        | some code =>
          obtain ⟨code', hFound', _⟩ := exists_after?_true hFound
          have hGo := moveNumbered_jump hEnd hFound row rest
          rw [hGo]
          exact ⟨0, code', .one (moveNumbered_jump hEnd hFound' row rest'), hReach.tail (.go hGo),
            hAll.jumps row label rest code code' hReach hEnd hFound hFound'⟩
    | whenTrue c body =>
      have hUnseen := hRest rfl
      exact ⟨0, _, _, _, _, .zero, rfl, rfl,
        ⟨hReach.tail (.yes rfl), unseen_append (fun _ => hUnseen) _⟩, hReach.tail (.no rfl), hUnseen⟩
    | choose c thenBody elseBody =>
      have hThen : falls thenBody = true → Unseen p rest rest' := fun h => hRest (by
        rw [Stmt.falls, h, Bool.true_or])
      have hElse : falls elseBody = true → Unseen p rest rest' := fun h => hRest (by
        rw [Stmt.falls, h, Bool.or_true])
      exact ⟨0, _, _, _, _, .zero, rfl, rfl, ⟨hReach.tail (.yes rfl), unseen_append hThen _⟩,
        hReach.tail (.no rfl), unseen_append hElse _⟩
    | absent | comment | label => exact ⟨0, _, .one rfl, hReach.tail (.go rfl), hRest rfl⟩
    | raw | setText | setNumber | call =>
      exact ⟨0, _, _, _, .zero, rfl, rfl, hReach.tail (.act rfl), hRest rfl⟩

theorem Unspilled.sameDeeds (h : Unspilled p start start') : SameRuns p start start' :=
  sameDeeds_of_answered
    (R := fun c c' => Reaches (moveNumbered false p) start c ∧ Unseen p c c')
    (fun _ _ hR => hR.2.answered h hR.1) ⟨.refl, h.entry⟩

end

end BatchCompiler.Target
