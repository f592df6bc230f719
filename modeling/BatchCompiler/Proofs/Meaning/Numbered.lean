import BatchCompiler.Proofs.Meaning.Target

/-!
# Statements by row

Every statement of a target program stands on a row of its script, and a conditional on several. A
program whose statements carry the numbers of their rows does what the program does, and two alike
statements of it are told apart.
-/

namespace BatchCompiler.Target

open Meaning

mutual

/-- How many rows the statement takes. A body without statements takes one. -/
def Stmt.height : Stmt → Nat
  | .whenTrue _ body => max 1 (height body) + 2
  | .choose _ thenBody elseBody => max 1 (height thenBody) + max 1 (height elseBody) + 3
  | _ => 1

def height : List Stmt → Nat
  | [] => 0
  | s :: rest => s.height + height rest

end

structure Numbered where
  row : Nat
  stmt : Stmt

def numbered (row : Nat) : List Stmt → List Numbered
  | [] => []
  | s :: rest => ⟨row, s⟩ :: numbered (row + s.height) rest

def elseRow (row : Nat) (thenBody : List Stmt) : Nat :=
  row + max 1 (height thenBody) + 2

theorem numbered_append (row : Nat) (a b : List Stmt) :
    numbered row (a ++ b) = numbered row a ++ numbered (row + height a) b := by
  induction a generalizing row with
  | nil => rfl
  | cons s rest ih => simp only [List.cons_append, numbered, ih, height, Nat.add_assoc]

@[simp] theorem map_stmt_numbered (row : Nat) (code : List Stmt) :
    (numbered row code).map Numbered.stmt = code := by
  induction code generalizing row with
  | nil => rfl
  | cons s rest ih => simp only [numbered, List.map_cons, ih]

mutual

/-- What follows the label inside the statement. With `spill`, leaving a then part leads on into the
else part. -/
def Stmt.after? (spill : Bool) (label : String) (row : Nat) : Stmt → Option (List Numbered)
  | .label name => if name = label then some [] else none
  | .whenTrue _ body => after? spill label (row + 1) body
  | .choose _ thenBody elseBody =>
    match after? spill label (row + 1) thenBody with
    | some inner =>
      some (inner ++ if spill then numbered (elseRow row thenBody) elseBody else [])
    | none => after? spill label (elseRow row thenBody) elseBody
  | _ => none

def after? (spill : Bool) (label : String) (row : Nat) : List Stmt → Option (List Numbered)
  | [] => none
  | s :: rest =>
    match s.after? spill label row with
    | some inner => some (inner ++ numbered (row + s.height) rest)
    | none => after? spill label (row + s.height) rest

end

def moveNumberedBy (resume : String → Option (List Numbered)) :
    List Numbered → Turn Numbered Numbered (List Numbered)
  | [] => .stop
  | ⟨row, s⟩ :: rest =>
    match s with
    | .jump target =>
      if target = endOfFile then .stop
      else match resume target with
        | some code => .go code
        | none => .stop
    | .whenTrue _ body => .test ⟨row, s⟩ (numbered (row + 1) body ++ rest) rest
    | .choose _ thenBody elseBody =>
      .test ⟨row, s⟩ (numbered (row + 1) thenBody ++ rest)
        (numbered (elseRow row thenBody) elseBody ++ rest)
    | .absent | .comment _ | .label _ => .go rest
    | .raw _ | .setText .. | .setNumber .. | .call .. => .act ⟨row, s⟩ rest

/-- A program by row; `spill` tells what a jump out of a then part goes on with. -/
def moveNumbered (spill : Bool) (p : Program) :
    List Numbered → Turn Numbered Numbered (List Numbered) :=
  moveNumberedBy fun label => after? spill label 0 p

def Stmt.condition? : Stmt → Option Comparison
  | .whenTrue cond _ | .choose cond _ _ => some cond
  | _ => none

mutual

theorem Stmt.map_after?_false (label : String) (row : Nat) (s : Stmt) :
    (s.after? false label row).map (List.map Numbered.stmt) = s.afterLabel? label := by
  cases s with
  | label name =>
    simp only [Stmt.after?, Stmt.afterLabel?]
    split <;> rfl
  | whenTrue cond body => exact map_after?_false label (row + 1) body
  | choose cond thenBody elseBody =>
    simp only [Stmt.after?, Stmt.afterLabel?, ← map_after?_false label (row + 1) thenBody]
    cases after? false label (row + 1) thenBody with
    | some inner => simp
    | none => exact map_after?_false label (elseRow row thenBody) elseBody
  | _ => rfl

theorem map_after?_false (label : String) (row : Nat) (code : List Stmt) :
    (after? false label row code).map (List.map Numbered.stmt) = afterLabel? label code := by
  match code with
  | [] => rfl
  | s :: rest =>
    simp only [after?, afterLabel?, ← Stmt.map_after?_false label row s]
    cases s.after? false label row with
    | some inner => simp
    | none => exact map_after?_false label (row + s.height) rest

end

theorem sameDeeds_moveNumbered (p : Program) (code : List Numbered) :
    SameDeeds (fun x s => x.stmt = s) (fun x cond => x.stmt.condition? = some cond)
      (moveNumbered false p) (move p) code (code.map Numbered.stmt) := by
  refine sameDeeds_of_answered (R := fun code plain => plain = code.map Numbered.stmt) ?_ rfl
  rintro code _ rfl
  refine .inr ?_
  rcases code with _ | ⟨⟨row, s⟩, rest⟩
  · exact ⟨0, [], .zero, rfl⟩
  have hGo : ∀ next, move p (List.map Numbered.stmt (⟨row, s⟩ :: rest)) = .go next →
      Quietly (move p) 1 (List.map Numbered.stmt (⟨row, s⟩ :: rest)) next :=
    fun _ h => .one h
  cases s with
  | jump target =>
    have hResume := map_after?_false target 0 p
    simp only [moveNumbered, moveNumberedBy]
    split
    · next hEnd => exact ⟨0, _, .zero, if_pos hEnd⟩
    · next hEnd =>
      cases hAfter : after? false target 0 p with
      | none =>
        rw [hAfter] at hResume
        refine ⟨0, _, .zero, ?_⟩
        simp only [move, moveBy, List.map_cons, if_neg hEnd, ← hResume, Option.map_none]
      | some code =>
        rw [hAfter] at hResume
        refine ⟨0, _, hGo _ ?_, rfl⟩
        simp only [move, moveBy, List.map_cons, if_neg hEnd, ← hResume, Option.map_some]
  | whenTrue cond body => exact ⟨0, _, _, _, _, .zero, rfl, rfl, by simp, rfl⟩
  | choose cond thenBody elseBody => exact ⟨0, _, _, _, _, .zero, rfl, rfl, by simp, by simp⟩
  | absent | comment | label => exact ⟨0, _, hGo _ rfl, rfl⟩
  | raw | setText | setNumber | call => exact ⟨0, _, _, _, .zero, rfl, rfl, rfl⟩

end BatchCompiler.Target
