import BatchCompiler.Proofs.Flattening.Temporaries
import BatchCompiler.Proofs.Syntax.Induction
import BatchCompiler.Proofs.Syntax.Positions
import BatchCompiler.Proofs.Syntax.Shape

/-!
# The rules of flattening

What flattening does with an expression depends on its form and its position. It is left alone, or
its parts are flattened and it stays, or it then moves into a temporary. The rules for expressions,
statements and items are stated here as relations, and whatever is flattened obeys them.
-/

namespace BatchCompiler

def Region.inFunction : Region → Bool
  | .top => false
  | .function _ => true

namespace Syntax.Flattening

variable {n : Node} {inFunction : Bool} {p : Position} {xs : List (Position × Node)}
  {ns new more out : List Node}

def flattenAt : Position → Node → Flat Node
  | .place => place
  | .index => indexOf
  | .arithmetic => arithmetic
  | .text => stringOf
  | .condition => condition
  | .value => value

def flattenAll : List (Position × Node) → Flat (List Node)
  | [] => pure []
  | (p, n) :: rest => do
    let n ← flattenAt p n
    let rest ← flattenAll rest
    pure (n :: rest)

/-- What becomes of an expression. Once its parts are flat, it may move: as a value, as the truth of
a condition, or as a value that is compared with zero. -/
inductive Treatment where
  | leave
  | keep
  | value
  | truth
  | zero
deriving DecidableEq

def treatment (inFunction : Bool) : Position → Node → Treatment
  | _, .subscript .. => .keep
  | .index, .bool .. | .index, .unary .. => if inFunction then .leave else .value
  | .index, .strCompare .. => if inFunction then .leave else .truth
  | .index, .binary _ op _ _ =>
    if inFunction then .leave else if op.isRelational then .truth else .value
  | .arithmetic, .unary .. | .value, .unary .. => .keep
  | .text, .unary .. => .value
  | .condition, .unary .. => .zero
  | .arithmetic, .binary _ op _ _ | .value, .binary _ op _ _ =>
    if op.isRelational then .truth else .keep
  | .text, .binary _ op _ _ => if op.isRelational then .truth else .value
  | .condition, .binary _ op _ _ => if op.isRelational then .keep else .zero
  | .arithmetic, .strCompare .. | .text, .strCompare .. | .value, .strCompare .. => .truth
  | .condition, .strCompare .. => .keep
  | .text, .concat .. | .value, .concat .. | .text, .call .. | .value, .call .. => .keep
  | .value, .list .. => .keep
  | _, _ => .leave

def parts : Node → List (Position × Node)
  | .call _ _ args => args.map fun a => (.text, a)
  | n => n.operands

def rebuild : Node → List Node → Node
  | .subscript span _ _, [array, index] => .subscript span array index
  | .unary span op _, [e] => .unary span op e
  | .binary span op _ _, [l, r] => .binary span op l r
  | .concat span _ _, [l, r] => .concat span l r
  | .strCompare span op _ _, [l, r] => .strCompare span op l r
  | .list span _, elems => .list span elems
  | .call span callee _, args => .call span callee args
  | n, _ => n

def finish (t : Treatment) (span : Span) (e : Node) : Flat Node :=
  match t with
  | .leave | .keep => pure e
  | .value => hoistValue span e
  | .truth => hoistTruth span e
  | .zero => do
    let t ← hoistValue span e
    pure (.binary span .ne t (.number span 0))

def turned (inFunction : Bool) (p : Position) (n : Node) : Flat Node :=
  if treatment inFunction p n = .leave then pure n
  else do
    let es ← flattenAll (parts n)
    finish (treatment inFunction p n) n.span (rebuild n es)

theorem flattenAll_texts (ns : List Node) :
    flattenAll (ns.map fun n => (.text, n)) = strings ns := by
  induction ns with
  | nil => rfl
  | cons n rest ih => rw [List.map_cons, flattenAll, ih, strings, flattenAt]

theorem flattenAll_values (ns : List Node) :
    flattenAll (ns.map fun n => (.value, n)) = values ns := by
  induction ns with
  | nil => rfl
  | cons n rest ih => rw [List.map_cons, flattenAll, ih, values, flattenAt]

theorem flattenAll_one {α : Type} (p : Position) (n : Node) (k : List Node → Flat α) :
    flattenAll [(p, n)] >>= k = flattenAt p n >>= fun n => k [n] := by
  simp only [flattenAll, bind_assoc, pure_bind]

theorem flattenAll_two {α : Type} (p q : Position) (a b : Node) (k : List Node → Flat α) :
    flattenAll [(p, a), (q, b)] >>= k =
      flattenAt p a >>= fun a => flattenAt q b >>= fun b => k [a, b] := by
  simp only [flattenAll, bind_assoc, pure_bind]

theorem atTop_bind (m : Flat Node) : (atTop >>= fun _ => m) = m := rfl

theorem flattenAt_eq (hn : n.isAbsent = false) (p : Position) :
    flattenAt p n = atTop >>= fun top => turned (!top) p n := by
  have hIndex : ∀ {k k' : Bool → Flat Node}, (∀ top, k top = k' top) →
      (atTop >>= k) = atTop >>= k' := fun h => congrArg (atTop >>= ·) (funext h)
  cases n with
  | absent => cases hn
  | subscript span array index =>
    simp only [turned, treatment, parts, Node.operands, flattenAll_two, atTop_bind]
    cases p <;> rfl
  | bool span v =>
    cases p with
    | index => exact hIndex fun top => by cases top <;> rfl
    | _ => rfl
  | unary span op e =>
    simp only [turned, parts, Node.operands, flattenAll_one]
    cases p with
    | index => exact hIndex fun top => by cases top <;> rfl
    | condition =>
      simp only [flattenAt, condition, arithmetic, bind_assoc, pure_bind]
      rfl
    | _ => rfl
  | binary span op l r =>
    simp only [turned, parts, Node.operands, flattenAll_two, TokenKind.operandPosition]
    cases p with
    | index =>
      refine hIndex fun top => ?_
      cases top <;> cases hOp : op.isRelational <;> simp [treatment, hOp] <;> rfl
    | place => rfl
    | _ =>
      cases hOp : op.isRelational <;>
        simp [flattenAt, condition, value, arithmetic, stringOf, treatment, hOp] <;> rfl
  | strCompare span op l r =>
    simp only [turned, parts, Node.operands, flattenAll_two]
    cases p with
    | index => exact hIndex fun top => by cases top <;> rfl
    | _ => rfl
  | concat span l r =>
    simp only [turned, parts, Node.operands, flattenAll_two]
    cases p <;> rfl
  | list span elems =>
    simp only [turned, parts, Node.operands, flattenAll_values]
    cases p <;> rfl
  | call span callee args =>
    simp only [turned, parts, flattenAll_texts]
    cases p <;> rfl
  | _ => cases p <;> rfl

theorem run_flattenAt (hn : n.isAbsent = false) (p : Position) (s : State) :
    (flattenAt p n).run s = (turned s.region.inFunction p n).run s := by
  have hTop : (!decide (s.region = .top)) = s.region.inFunction := by cases s.region <;> rfl
  rw [flattenAt_eq hn, ← hTop]
  rfl

theorem run_flattenAt_absent (p : Position) (s : State) :
    (flattenAt p .absent).run s = .error .absentPart := by
  cases p <;> rfl

def Treatment.moves : Treatment → Bool
  | .leave | .keep => false
  | .value | .truth | .zero => true

theorem position_of_zero (h : treatment inFunction p n = .zero) : p = .condition := by
  cases n with
  | binary span op l r =>
    cases hOp : op.isRelational <;> cases p <;> cases inFunction <;> simp [treatment, hOp] at h ⊢
  | _ => cases p <;> cases inFunction <;> first | rfl | cases h

def Treatment.position : Treatment → Position
  | .truth => .condition
  | _ => .value

theorem treatment_of_moves (h : (treatment inFunction p n).moves = true) :
    treatment inFunction (treatment inFunction p n).position n = .keep ∨
      treatment inFunction p n = .value ∧ ∃ span v, n = .bool span v := by
  cases n with
  | bool span v =>
    refine .inr ⟨?_, span, v, rfl⟩
    cases p <;> cases inFunction <;> first | rfl | cases h
  | binary span op l r =>
    refine .inl ?_
    cases hOp : op.isRelational <;> cases p <;> cases inFunction <;>
      simp_all [treatment, Treatment.moves, Treatment.position]
  | _ =>
    refine .inl ?_
    cases p <;> cases inFunction <;> first | rfl | cases h

def filling (t : Treatment) (span : Span) (e temp : Node) : Node :=
  if t = .truth then assignTruth span e temp else .assign span temp e

def remainder (t : Treatment) (span : Span) (temp : Node) : Node :=
  if t = .zero then .binary span .ne temp (.number span 0) else temp

def filledName? : Node → Option String
  | .assign _ (.ident _ name) _ => some name
  | .branch _ _ (.block _ [.assign _ (.ident _ name) _] _) _ => some name
  | _ => none

/-- The temporaries that the statements in front of another one fill. -/
def filledNames (new : List Node) : List String :=
  new.filterMap filledName?

theorem filledNames_append (a b : List Node) :
    filledNames (a ++ b) = filledNames a ++ filledNames b :=
  List.filterMap_append

theorem not_mem_filledNames_append {name : String} {a b : List Node} (ha : name ∉ filledNames a)
    (hb : name ∉ filledNames b) : name ∉ filledNames (a ++ b) := by
  rw [filledNames_append, List.mem_append, not_or]
  exact ⟨ha, hb⟩

theorem filledNames_filling (t : Treatment) (span : Span) (e : Node) (name : String)
    (new : List Node) :
    filledNames (filling t span e (.ident span name) :: new) = name :: filledNames new := by
  refine List.filterMap_cons_some ?_
  unfold filling
  split <;> rfl

def Apart (a b : List Node) : Prop :=
  ∀ name ∈ filledNames a, name ∉ filledNames b

/-- The expressions, each in its position, turn into the others when the statements that come last
are put in front. What is filled for one expression is not filled again for the next. -/
inductive Turns (inFunction : Bool) : List (Position × Node) → List Node → List Node → Prop where
  | nil : Turns inFunction [] [] []
  | leave {p : Position} {n : Node} {xs : List (Position × Node)} {ns new : List Node}
    (hAbsent : n.isAbsent = false) (hn : treatment inFunction p n = .leave)
    (h : Turns inFunction xs ns new) : Turns inFunction ((p, n) :: xs) (n :: ns) new
  | keep {p : Position} {n : Node} {xs : List (Position × Node)} {es ns before new : List Node}
    (hn : treatment inFunction p n = .keep) (hParts : Turns inFunction (parts n) es before)
    (hApart : Apart before new) (h : Turns inFunction xs ns new) :
    Turns inFunction ((p, n) :: xs) (rebuild n es :: ns) (before ++ new)
  | move {p : Position} {n : Node} {xs : List (Position × Node)} {es ns before new : List Node}
    (number : Nat) (hn : (treatment inFunction p n).moves = true)
    (hParts : Turns inFunction (parts n) es before)
    (hNew : temporaryName number ∉ filledNames new) (h : Turns inFunction xs ns new) :
    Turns inFunction ((p, n) :: xs)
      (remainder (treatment inFunction p n) n.span (.ident n.span (temporaryName number)) :: ns)
      (before ++ filling (treatment inFunction p n) n.span (rebuild n es)
        (.ident n.span (temporaryName number)) :: new)

theorem Turns.length_eq (h : Turns inFunction xs ns new) : ns.length = xs.length := by
  induction h with
  | nil => rfl
  | leave _ _ _ ih | keep _ _ _ _ _ ih | move _ _ _ _ _ _ ih => simp [ih]

theorem Turns.exists_of_cons {x : Position × Node} (h : Turns inFunction (x :: xs) (n :: ns) new) :
    ∃ first others, new = first ++ others ∧ Turns inFunction [x] [n] first ∧
      Turns inFunction xs ns others := by
  cases h with
  | leave hAbsent hn h => exact ⟨[], _, rfl, .leave hAbsent hn .nil, h⟩
  | keep hn hParts _ h =>
    refine ⟨_, _, ?_, .keep hn hParts (fun _ _ => List.not_mem_nil) .nil, h⟩
    rw [List.append_nil]
  | move number hn hParts _ h =>
    refine ⟨_, _, ?_, .move number hn hParts List.not_mem_nil .nil, h⟩
    rw [List.append_assoc]
    rfl

theorem Turns.isAbsent (h : Turns inFunction xs ns new) :
    (∀ x ∈ xs, x.2.isAbsent = false) ∧ ∀ n ∈ ns, n.isAbsent = false := by
  have hWhole : ∀ {p n}, treatment inFunction p n ≠ .leave →
      n.isAbsent = false ∧ ∀ es, (rebuild n es).isAbsent = false := by
    intro p n hn
    cases n with
    | absent => cases p <;> exact absurd rfl hn
    | _ =>
      refine ⟨rfl, fun es => ?_⟩
      unfold rebuild
      split <;> rfl
  induction h with
  | nil => exact ⟨List.forall_mem_nil _, List.forall_mem_nil _⟩
  | leave hAbsent _ _ ih =>
    exact ⟨List.forall_mem_cons.mpr ⟨hAbsent, ih.1⟩, List.forall_mem_cons.mpr ⟨hAbsent, ih.2⟩⟩
  | keep hn _ _ _ _ ih =>
    obtain ⟨hAbsent, hRebuild⟩ := hWhole (by rw [hn]; decide)
    exact ⟨List.forall_mem_cons.mpr ⟨hAbsent, ih.1⟩,
      List.forall_mem_cons.mpr ⟨hRebuild _, ih.2⟩⟩
  | move number hn _ _ _ _ ih =>
    obtain ⟨hAbsent, -⟩ := hWhole (by rintro h; rw [h] at hn; cases hn)
    refine ⟨List.forall_mem_cons.mpr ⟨hAbsent, ih.1⟩, List.forall_mem_cons.mpr ⟨?_, ih.2⟩⟩
    unfold remainder
    split <;> rfl

structure Stands (n : Node) : Prop where
  isAbsent : n.isAbsent = false
  isFunc : n.isFunc = false

theorem Turns.exists_filling (h : Turns inFunction xs ns new) (hn : n ∈ new) :
    ∃ t span e temp, n = filling t span e temp := by
  induction h with
  | nil => cases hn
  | leave _ _ _ ih => exact ih hn
  | keep _ _ _ _ ihParts ih => exact (List.mem_append.mp hn).elim ihParts ih
  | move number _ _ _ _ ihParts ih =>
    rcases List.mem_append.mp hn with hn | hn
    · exact ihParts hn
    · rcases List.mem_cons.mp hn with rfl | hn
      · exact ⟨_, _, _, _, rfl⟩
      · exact ih hn

theorem stands_filling (t : Treatment) (span : Span) (e temp : Node) :
    Stands (filling t span e temp) := by
  unfold filling
  split <;> exact ⟨rfl, rfl⟩

theorem Turns.stands_new (h : Turns inFunction xs ns new) : ∀ n ∈ new, Stands n := by
  intro n hn
  obtain ⟨t, span, e, temp, rfl⟩ := h.exists_filling hn
  exact stands_filling t span e temp

def State.nextNumber (s : State) : Nat :=
  ((s.table.scope? s.region).map Scope.counter).getD 0

/-- The region and the functions stay, and the statements come to wait behind those that did. They
fill temporaries that were not made before. -/
structure Adds (s : State) (new : List Node) (s' : State) : Prop where
  region : s'.region = s.region
  functions : s'.table.functionNames = s.table.functionNames
  before : s'.before = s.before ++ new
  le : s.nextNumber ≤ s'.nextNumber
  numbers : ∀ name ∈ filledNames new, ∃ k, temporaryName k = name ∧ s.nextNumber ≤ k ∧
    k < s'.nextNumber

theorem Adds.refl (s : State) : Adds s [] s :=
  ⟨rfl, rfl, (List.append_nil _).symm, Nat.le_refl _, List.forall_mem_nil _⟩

section

variable {s s₁ s' : State}

theorem Adds.trans (h : Adds s new s₁) (h' : Adds s₁ more s') : Adds s (new ++ more) s' where
  region := h'.region.trans h.region
  functions := h'.functions.trans h.functions
  before := by rw [h'.before, h.before, List.append_assoc]
  le := Nat.le_trans h.le h'.le
  numbers := by
    intro name hName
    rw [filledNames_append, List.mem_append] at hName
    rcases hName with hName | hName
    · obtain ⟨k, hk, hLe, hLt⟩ := h.numbers name hName
      exact ⟨k, hk, hLe, Nat.lt_of_lt_of_le hLt h'.le⟩
    · obtain ⟨k, hk, hLe, hLt⟩ := h'.numbers name hName
      exact ⟨k, hk, Nat.le_trans h.le hLe, hLt⟩

theorem Adds.apart (h : Adds s new s₁) (h' : Adds s₁ more s') : Apart new more := by
  intro name hName hMore
  obtain ⟨k, rfl, -, hLt⟩ := h.numbers name hName
  obtain ⟨j, hj, hLe, -⟩ := h'.numbers _ hMore
  have hkj := temporaryName_injective hj
  omega

end

theorem Turns.append {ys : List (Position × Node)} {ms : List Node}
    (h : Turns inFunction xs ns new) (hApart : Apart new more) (h' : Turns inFunction ys ms more) :
    Turns inFunction (xs ++ ys) (ns ++ ms) (new ++ more) := by
  induction h with
  | nil => exact h'
  | leave hAbsent hn _ ih => exact .leave hAbsent hn (ih hApart)
  | keep hn hParts hFirst _ _ ih =>
    simp only [Apart, filledNames_append, List.forall_mem_append] at hApart
    rw [List.append_assoc]
    exact .keep hn hParts (fun name hName => not_mem_filledNames_append (hFirst name hName)
      (hApart.1 name hName)) (ih hApart.2)
  | move number hn hParts hNew _ _ ih =>
    simp only [Apart, filledNames_append, filledNames_filling, List.forall_mem_append,
      List.forall_mem_cons] at hApart
    rw [List.append_assoc]
    exact .move number hn hParts (not_mem_filledNames_append hNew hApart.2.1) (ih hApart.2.2)

section

variable {α β : Type} {s s' : State} {span : Span} {n : Node}

theorem exists_of_run_bind_ok {m : Flat α} {k : α → Flat β} {b : β}
    (h : (m >>= k).run s = .ok (b, s')) :
    ∃ a s₁, m.run s = .ok (a, s₁) ∧ (k a).run s₁ = .ok (b, s') := by
  rw [StateT.run_bind] at h
  cases hRun : m.run s with
  | error why =>
    rw [hRun] at h
    cases h
  | ok r =>
    rw [hRun] at h
    exact ⟨r.1, r.2, rfl, h⟩

theorem adds_of_run_temporary (h : (temporary span).run s = .ok (n, s')) :
    ∃ number, n = .ident span (temporaryName number) ∧ Adds s [] s' ∧ s.nextNumber ≤ number ∧
      number < s'.nextNumber := by
  simp only [temporary, StateT.run_bind, StateT.run_get, pure_bind] at h
  split at h
  · cases h
  · next name table hFresh =>
    cases h
    obtain ⟨scope, hScope, -⟩ := Option.map_eq_some_iff.mp hFresh
    obtain ⟨number, table', scope', hFresh', hLe, hScope', hCounter, hNames⟩ :=
      ScopeTable.exists_fresh? hScope temporaryLead
    cases hFresh.symm.trans hFresh'
    have hNumber : s.nextNumber ≤ number := by
      rw [State.nextNumber, hScope]
      exact hLe
    have hNext : State.nextNumber { s with table := table } = number + 1 := by
      rw [State.nextNumber, hScope', ← hCounter]
      rfl
    have hLt : number < State.nextNumber { s with table := table } := hNext ▸ Nat.lt_succ_self _
    exact ⟨number, rfl, ⟨rfl, hNames, (List.append_nil _).symm, Nat.le_of_lt (Nat.lt_of_le_of_lt hNumber hLt),
      List.forall_mem_nil _⟩, hNumber, hLt⟩

theorem adds_of_run_finish {t : Treatment} (ht : t.moves = true) {e : Node}
    (h : (finish t span e).run s = .ok (n, s')) :
    ∃ number, n = remainder t span (.ident span (temporaryName number)) ∧
      Adds s [filling t span e (.ident span (temporaryName number))] s' := by
  have hHoisted : ∀ {temp : Node} {s' : State},
      (do
        let temp ← temporary span
        push (filling t span e temp)
        pure temp : Flat Node).run s = .ok (temp, s') →
      ∃ number, temp = .ident span (temporaryName number) ∧
        Adds s [filling t span e (.ident span (temporaryName number))] s' := by
    intro temp s' h
    obtain ⟨temp, s₁, hTemporary, h⟩ := exists_of_run_bind_ok h
    cases h
    obtain ⟨number, rfl, hAdds, hLe, hLt⟩ := adds_of_run_temporary hTemporary
    refine ⟨number, rfl, hAdds.region, hAdds.functions, ?_, hAdds.le, ?_⟩
    · rw [← List.append_nil s.before, ← hAdds.before]
    · rw [filledNames_filling]
      exact List.forall_mem_singleton.mpr ⟨number, rfl, hLe, hLt⟩
  cases t with
  | leave | keep => cases ht
  | value | truth => exact hHoisted h
  | zero =>
    obtain ⟨temp, s₁, hRun, h⟩ := exists_of_run_bind_ok h
    cases h
    obtain ⟨number, rfl, hAdds⟩ := hHoisted hRun
    exact ⟨number, rfl, hAdds⟩

theorem mem_children_of_mem_parts {x : Position × Node} (h : x ∈ parts n) : x.2 ∈ n.children := by
  cases n <;> simp_all [parts, Node.operands, Node.children] <;> grind

theorem isExpression_parts (hn : n.isExpression = true) : ∀ x ∈ parts n, x.2.isExpression = true := by
  cases n <;> simp_all [parts, Node.operands, Node.isExpression, Node.areExpressions_iff]

/-- Flattening the expressions, if it succeeds, turns them into others. -/
def Obeys (xs : List (Position × Node)) : Prop :=
  ∀ {s ns s'}, (flattenAll xs).run s = .ok (ns, s') →
    ∃ new, Turns s.region.inFunction xs ns new ∧ Adds s new s'

theorem obeys_cons (hn : ∀ {s n' s'}, (flattenAt p n).run s = .ok (n', s') →
      ∃ new, Turns s.region.inFunction [(p, n)] [n'] new ∧ Adds s new s') (hxs : Obeys xs) :
    Obeys ((p, n) :: xs) := by
  intro s ns s' h
  obtain ⟨n', s₁, hRun, h⟩ := exists_of_run_bind_ok h
  obtain ⟨rest, s₂, hRunRest, h⟩ := exists_of_run_bind_ok h
  cases h
  obtain ⟨new, hTurns, hAdds⟩ := hn hRun
  obtain ⟨more, hTurnsRest, hAddsRest⟩ := hxs hRunRest
  rw [hAdds.region] at hTurnsRest
  exact ⟨new ++ more, hTurns.append (hAdds.apart hAddsRest) hTurnsRest, hAdds.trans hAddsRest⟩

theorem obeys_nil : Obeys [] := by
  rintro s _ _ ⟨⟩
  exact ⟨[], .nil, .refl s⟩

theorem turns_of_run {n' : Node} (h : (flattenAt p n).run s = .ok (n', s')) :
    ∃ new, Turns s.region.inFunction [(p, n)] [n'] new ∧ Adds s new s' := by
  induction n using Node.inductionOnParts generalizing p n' s s' with
  | step n ih =>
    cases hAbsent : n.isAbsent with
    | true =>
      cases n with
      | absent =>
        rw [run_flattenAt_absent] at h
        cases h
      | _ => cases hAbsent
    | false =>
      rw [run_flattenAt hAbsent, turned] at h
      split at h
      · next hLeave =>
        cases h
        exact ⟨[], .leave hAbsent hLeave .nil, .refl s⟩
      · next hLeave =>
        obtain ⟨es, s₁, hParts, h⟩ := exists_of_run_bind_ok h
        have hObeys : ∀ {xs : List (Position × Node)}, (∀ x ∈ xs, x.2 ∈ n.children) → Obeys xs := by
          intro xs hxs
          induction xs with
          | nil => exact obeys_nil
          | cons x rest ihRest =>
            obtain ⟨hx, hRest⟩ := List.forall_mem_cons.mp hxs
            exact obeys_cons (ih x.2 hx) (ihRest hRest)
        obtain ⟨before, hTurns, hAdds⟩ := hObeys (fun x => mem_children_of_mem_parts) hParts
        cases hMoves : (treatment s.region.inFunction p n).moves with
        | true =>
          obtain ⟨number, rfl, hAdds'⟩ := adds_of_run_finish hMoves h
          exact ⟨_, .move number hMoves hTurns List.not_mem_nil .nil, hAdds.trans hAdds'⟩
        | false =>
          have hKeep : treatment s.region.inFunction p n = .keep := by
            cases hTreatment : treatment s.region.inFunction p n with
            | leave => exact absurd hTreatment hLeave
            | keep => rfl
            | _ =>
              rw [hTreatment] at hMoves
              cases hMoves
          rw [hKeep] at h
          cases h
          exact ⟨_, .keep hKeep hTurns (fun _ _ => List.not_mem_nil) .nil, by rwa [List.append_nil]⟩

theorem obeys (xs : List (Position × Node)) : Obeys xs := by
  induction xs with
  | nil => exact obeys_nil
  | cons x rest ih => exact obeys_cons turns_of_run ih

end

def isPassed : Node → Bool
  | .absent | .block .. | .assign .. | .call .. | .branch .. | .loop .. => false
  | .ret _ e => e.isAbsent
  | _ => true

def bodyStatements (n : Node) : List Node :=
  if n.isAbsent then [] else [n]

theorem forall_bodyStatements {P : Node → Prop} (h : n.isAbsent = true ∨ P n) :
    ∀ m ∈ bodyStatements n, P m := by
  unfold bodyStatements
  split
  · exact List.forall_mem_nil _
  · next hPresent => exact List.forall_mem_singleton.mpr (h.resolve_left hPresent)

def gathered (n : Node) (stmts : List Node) : Node :=
  if n.isAbsent then .absent else single n.span stmts

inductive Becomes (inFunction : Bool) : List Node → List Node → Prop where
  | nil : Becomes inFunction [] []
  | passed {n : Node} {ns out : List Node} (hn : isPassed n = true) (h : Becomes inFunction ns out) :
    Becomes inFunction (n :: ns) (n :: out)
  | block {span : Span} {stmts stmts' ns out : List Node} {synthetic : Bool}
    (hStmts : Becomes inFunction stmts stmts') (h : Becomes inFunction ns out) :
    Becomes inFunction (.block span stmts synthetic :: ns) (.block span stmts' synthetic :: out)
  | assign {span : Span} {lhs rhs lhs' rhs' : Node} {new ns out : List Node}
    (hRhs : rhs.isComparison = false)
    (hTurns : Turns inFunction [(.place, lhs), (.value, rhs)] [lhs', rhs'] new)
    (h : Becomes inFunction ns out) :
    Becomes inFunction (.assign span lhs rhs :: ns) (new ++ .assign span lhs' rhs' :: out)
  | decide {span : Span} {lhs rhs lhs' cond : Node} {new ns out : List Node}
    (hRhs : rhs.isComparison = true)
    (hTurns : Turns inFunction [(.place, lhs), (.condition, rhs)] [lhs', cond] new)
    (h : Becomes inFunction ns out) :
    Becomes inFunction (.assign span lhs rhs :: ns) (new ++ assignTruth span cond lhs' :: out)
  | call {span : Span} {callee : Node} {args args' new ns out : List Node}
    (hTurns : Turns inFunction (args.map fun a => (.text, a)) args' new)
    (h : Becomes inFunction ns out) :
    Becomes inFunction (.call span callee args :: ns) (new ++ .call span callee args' :: out)
  | branch {span : Span} {cond cond' thenBody elseBody : Node}
    {new thenStmts elseStmts ns out : List Node}
    (hTurns : Turns inFunction [(.condition, cond)] [cond'] new)
    (hThen : Becomes inFunction (bodyStatements thenBody) thenStmts)
    (hElse : Becomes inFunction (bodyStatements elseBody) elseStmts) (h : Becomes inFunction ns out) :
    Becomes inFunction (.branch span cond thenBody elseBody :: ns)
      (new ++ .branch span cond' (gathered thenBody thenStmts) (gathered elseBody elseStmts) :: out)
  | loop {span : Span} {cond cond' body : Node} {new stmts ns out : List Node}
    (hTurns : Turns inFunction [(.condition, cond)] [cond'] new)
    (hBody : Becomes inFunction [body] stmts) (h : Becomes inFunction ns out) :
    Becomes inFunction (.loop span cond body :: ns)
      (new ++ .loop span cond' (single body.span (stmts ++ new)) :: out)
  | ret {span : Span} {e e' : Node} {new ns out : List Node}
    (hTurns : Turns inFunction [(.value, e)] [e'] new) (h : Becomes inFunction ns out) :
    Becomes inFunction (.ret span e :: ns) (new ++ .ret span e' :: out)

theorem Becomes.append {a b : List Node} (h : Becomes inFunction a out)
    (h' : Becomes inFunction b more) : Becomes inFunction (a ++ b) (out ++ more) := by
  induction h with
  | nil => exact h'
  | passed hn _ ih => exact .passed hn ih
  | block hStmts _ _ ih => exact .block hStmts ih
  | assign hRhs hTurns _ ih =>
    rw [List.append_assoc]
    exact .assign hRhs hTurns ih
  | decide hRhs hTurns _ ih =>
    rw [List.append_assoc]
    exact .decide hRhs hTurns ih
  | call hTurns _ ih =>
    rw [List.append_assoc]
    exact .call hTurns ih
  | branch hTurns hThen hElse _ _ _ ih =>
    rw [List.append_assoc]
    exact .branch hTurns hThen hElse ih
  | loop hTurns hBody _ _ ih =>
    rw [List.append_assoc]
    exact .loop hTurns hBody ih
  | ret hTurns _ ih =>
    rw [List.append_assoc]
    exact .ret hTurns ih

theorem Becomes.stands (h : Becomes inFunction ns out) (hns : ∀ n ∈ ns, n.isFunc = false) :
    ∀ n ∈ out, Stands n := by
  induction h with
  | nil => exact List.forall_mem_nil _
  | @passed n _ _ hn _ ih =>
    obtain ⟨hFunc, hRest⟩ := List.forall_mem_cons.mp hns
    refine List.forall_mem_cons.mpr ⟨⟨?_, hFunc⟩, ih hRest⟩
    cases n with
    | absent => cases hn
    | _ => rfl
  | block _ _ _ ih =>
    exact List.forall_mem_cons.mpr ⟨⟨rfl, rfl⟩, ih (List.forall_mem_cons.mp hns).2⟩
  | assign _ hTurns _ ih | decide _ hTurns _ ih | call hTurns _ ih | ret hTurns _ ih
  | branch hTurns _ _ _ _ _ ih | loop hTurns _ _ _ ih =>
    exact List.forall_mem_append.mpr ⟨hTurns.stands_new,
      List.forall_mem_cons.mpr ⟨⟨rfl, rfl⟩, ih (List.forall_mem_cons.mp hns).2⟩⟩

inductive ItemsBecome : List Node → List Node → Prop where
  | nil : ItemsBecome [] []
  | func {span : Span} {name : String} {params stmts ns out : List Node} {body : Node}
    (hBody : Becomes true (bodyStatements body) stmts) (h : ItemsBecome ns out) :
    ItemsBecome (.func span name params body :: ns)
      (.func span name params (gathered body stmts) :: out)
  | statement {n : Node} {stmts ns out : List Node} (hn : n.isFunc = false)
    (hStmts : Becomes false [n] stmts) (h : ItemsBecome ns out) : ItemsBecome (n :: ns) (stmts ++ out)

theorem filter_stands {stmts : List Node} (h : ∀ n ∈ stmts, Stands n) :
    (stmts.filter fun n => !n.isFunc) = stmts ∧ stmts.filter Node.isFunc = [] := by
  constructor
  · exact List.filter_eq_self.mpr fun n hn => by simp [(h n hn).isFunc]
  · exact List.filter_eq_nil_iff.mpr fun n hn => by simp [(h n hn).isFunc]

theorem ItemsBecome.statements (h : ItemsBecome ns out) :
    Becomes false (ns.filter fun n => !n.isFunc) (out.filter fun n => !n.isFunc) := by
  induction h with
  | nil => exact .nil
  | func _ _ ih => exact ih
  | statement hn hStmts _ ih =>
    rw [List.filter_cons_of_pos (by simp [hn]), List.filter_append,
      (filter_stands (hStmts.stands (List.forall_mem_singleton.mpr hn))).1]
    exact hStmts.append ih

section

variable {s s' s₁ : State} {n : Node} {ns new out : List Node}

theorem Adds.flushed (h : Adds s new s₁) (hBefore : s.before = []) :
    Adds s [] { s₁ with before := [] } ∧ s₁.before = new := by
  have hNew := h.before
  rw [hBefore, List.nil_append] at hNew
  exact ⟨⟨h.region, h.functions, by rw [hBefore, List.append_nil], h.le, List.forall_mem_nil _⟩, hNew⟩

/-- From a state in which nothing waits, flattening the statement makes it others. -/
def Complies (n : Node) : Prop :=
  ∀ {s out s'}, (statement n).run s = .ok (out, s') → s.before = [] →
    Becomes s.region.inFunction [n] out ∧ Adds s [] s'

theorem becomes_of_run_statements (hns : ∀ n ∈ ns, Complies n)
    (h : (statements ns).run s = .ok (out, s')) (hBefore : s.before = []) :
    Becomes s.region.inFunction ns out ∧ Adds s [] s' := by
  induction ns generalizing s out with
  | nil =>
    cases h
    exact ⟨.nil, .refl _⟩
  | cons n rest ih =>
    obtain ⟨hn, hRest⟩ := List.forall_mem_cons.mp hns
    obtain ⟨first, s₁, hFirst, h⟩ := exists_of_run_bind_ok h
    obtain ⟨others, s₂, hOthers, h⟩ := exists_of_run_bind_ok h
    cases h
    obtain ⟨hBecomes, hAdds⟩ := hn hFirst hBefore
    obtain ⟨hBecomes', hAdds'⟩ := ih hRest hOthers (by rw [hAdds.before, hBefore, List.append_nil])
    rw [hAdds.region] at hBecomes'
    exact ⟨hBecomes.append hBecomes', hAdds.trans hAdds'⟩

theorem becomes_of_run_body {β : Type} {k : Node → Flat β} {b : β} (hn : Complies n)
    (h : (if n.isAbsent = true then pure .absent >>= k
      else statement n >>= fun stmts => pure (single n.span stmts) >>= k).run s = .ok (b, s'))
    (hBefore : s.before = []) :
    ∃ stmts s₁, Becomes s.region.inFunction (bodyStatements n) stmts ∧ Adds s [] s₁ ∧
      (k (gathered n stmts)).run s₁ = .ok (b, s') := by
  unfold bodyStatements gathered
  split at h
  · next hAbsent =>
    simp only [hAbsent, if_true]
    exact ⟨[], s, .nil, .refl s, h⟩
  · next hAbsent =>
    obtain ⟨stmts, s₁, hRun, h⟩ := exists_of_run_bind_ok h
    obtain ⟨hBecomes, hAdds⟩ := hn hRun hBefore
    simp only [hAbsent]
    exact ⟨stmts, s₁, hBecomes, hAdds, h⟩

theorem complies (n : Node) : Complies n := by
  induction n using Node.induction with
  | absent =>
    intro s out s' h
    cases h
  | block span stmts synthetic ih =>
    intro s out s' h hBefore
    obtain ⟨stmts', s₁, hRun, h⟩ := exists_of_run_bind_ok h
    cases h
    obtain ⟨hBecomes, hAdds⟩ := becomes_of_run_statements ih hRun hBefore
    exact ⟨.block hBecomes .nil, hAdds⟩
  | assign span lhs rhs =>
    intro s out s' h hBefore
    rw [statement] at h
    obtain ⟨lhs', s₁, hPlace, h⟩ := exists_of_run_bind_ok h
    obtain ⟨new, hLhs, hAdds⟩ := turns_of_run (p := .place) hPlace
    split at h
    · next hRhs =>
      obtain ⟨cond, s₂, hCond, h⟩ := exists_of_run_bind_ok h
      obtain ⟨more, hTurns, hAdds'⟩ := turns_of_run (p := .condition) hCond
      cases h
      obtain ⟨hFlushed, hNew⟩ := (hAdds.trans hAdds').flushed hBefore
      rw [hAdds.region] at hTurns
      rw [hNew]
      exact ⟨.decide hRhs (hLhs.append (hAdds.apart hAdds') hTurns) .nil, hFlushed⟩
    · next hRhs =>
      obtain ⟨rhs', s₂, hValue, h⟩ := exists_of_run_bind_ok h
      obtain ⟨more, hTurns, hAdds'⟩ := turns_of_run (p := .value) hValue
      cases h
      obtain ⟨hFlushed, hNew⟩ := (hAdds.trans hAdds').flushed hBefore
      rw [hAdds.region] at hTurns
      rw [hNew]
      exact ⟨.assign (by simpa using hRhs) (hLhs.append (hAdds.apart hAdds') hTurns) .nil, hFlushed⟩
  | call span callee args =>
    intro s out s' h hBefore
    rw [statement, stringOf, ← flattenAll_texts, bind_assoc] at h
    obtain ⟨args', s₁, hArgs, h⟩ := exists_of_run_bind_ok h
    obtain ⟨new, hTurns, hAdds⟩ := obeys _ hArgs
    cases h
    obtain ⟨hFlushed, hNew⟩ := hAdds.flushed hBefore
    rw [hNew]
    exact ⟨.call hTurns .nil, hFlushed⟩
  | branch span cond thenBody elseBody _ ihThen ihElse =>
    intro s out s' h hBefore
    rw [statement] at h
    obtain ⟨cond', s₁, hCond, h⟩ := exists_of_run_bind_ok h
    obtain ⟨new, hTurns, hAdds⟩ := turns_of_run (p := .condition) hCond
    obtain ⟨hFlushed, hNew⟩ := hAdds.flushed hBefore
    obtain ⟨before, s₂, hFlush, h⟩ := exists_of_run_bind_ok h
    cases hFlush
    obtain ⟨thenStmts, s₃, hThen, hAdds₃, h⟩ := becomes_of_run_body ihThen h rfl
    obtain ⟨elseStmts, s₄, hElse, hAdds₄, h⟩ := becomes_of_run_body ihElse h hAdds₃.before
    cases h
    rw [hAdds₃.region] at hElse
    rw [hFlushed.region] at hThen hElse
    rw [hNew]
    exact ⟨.branch hTurns hThen hElse .nil, (hFlushed.trans hAdds₃).trans hAdds₄⟩
  | loop span cond body _ ihBody =>
    intro s out s' h hBefore
    rw [statement] at h
    obtain ⟨cond', s₁, hCond, h⟩ := exists_of_run_bind_ok h
    obtain ⟨new, hTurns, hAdds⟩ := turns_of_run (p := .condition) hCond
    obtain ⟨hFlushed, hNew⟩ := hAdds.flushed hBefore
    obtain ⟨before, s₂, hFlush, h⟩ := exists_of_run_bind_ok h
    cases hFlush
    obtain ⟨stmts, s₃, hBody, h⟩ := exists_of_run_bind_ok h
    cases h
    obtain ⟨hBecomes, hAdds₃⟩ := ihBody hBody rfl
    rw [hFlushed.region] at hBecomes
    rw [hNew]
    exact ⟨.loop hTurns hBecomes .nil, hFlushed.trans hAdds₃⟩
  | ret span e =>
    intro s out s' h hBefore
    rw [statement] at h
    split at h
    · next hAbsent =>
      cases e with
      | absent =>
        cases h
        exact ⟨.passed rfl .nil, .refl s⟩
      | _ => cases hAbsent
    · obtain ⟨e', s₁, hValue, h⟩ := exists_of_run_bind_ok h
      obtain ⟨new, hTurns, hAdds⟩ := turns_of_run (p := .value) hValue
      cases h
      obtain ⟨hFlushed, hNew⟩ := hAdds.flushed hBefore
      rw [hNew]
      exact ⟨.ret hTurns .nil, hFlushed⟩
  | _ =>
    intro s out s' h hBefore
    cases h
    exact ⟨.passed rfl .nil, .refl s⟩

theorem itemsBecome_of_run (h : (items ns).run s = .ok (out, s')) (hBefore : s.before = []) :
    ItemsBecome ns out ∧ s'.table.functionNames = s.table.functionNames := by
  induction ns generalizing s out with
  | nil =>
    cases h
    exact ⟨.nil, rfl⟩
  | cons n rest ih =>
    cases hn : n.isFunc with
    | true =>
      cases n with
      | func span name params body =>
        rw [items] at h
        obtain ⟨_, s₁, hEnter, h⟩ := exists_of_run_bind_ok h
        cases hEnter
        obtain ⟨body', s₂, hBody, h⟩ := exists_of_run_bind_ok h
        obtain ⟨rest', s₃, hRest, h⟩ := exists_of_run_bind_ok h
        cases h
        rw [functionBody_eq] at hBody
        obtain ⟨stmts, s₄, hBecomes, hAdds, h⟩ := becomes_of_run_body (complies body) hBody hBefore
        cases h
        obtain ⟨hItems, hFunctions⟩ := ih hRest (by rw [hAdds.before, List.append_nil, hBefore])
        exact ⟨.func hBecomes hItems, hFunctions.trans hAdds.functions⟩
      | _ => cases hn
    | false =>
      have hRun : (items (n :: rest)).run s = (do
          enter .top
          let n ← statement n
          let rest ← items rest
          pure (n ++ rest)).run s := by
        cases n with
        | func => cases hn
        | _ => rfl
      rw [hRun] at h
      obtain ⟨_, s₁, hEnter, h⟩ := exists_of_run_bind_ok h
      cases hEnter
      obtain ⟨first, s₂, hFirst, h⟩ := exists_of_run_bind_ok h
      obtain ⟨rest', s₃, hRest, h⟩ := exists_of_run_bind_ok h
      cases h
      obtain ⟨hBecomes, hAdds⟩ := complies n hFirst hBefore
      obtain ⟨hItems, hFunctions⟩ := ih hRest (by rw [hAdds.before, List.append_nil, hBefore])
      exact ⟨.statement hn hBecomes hItems, hFunctions.trans hAdds.functions⟩

/-- A program is flattened by the rules, unless it is no list of items, and the table gets no new
functions. -/
theorem itemsBecome_of_flatten {table table' : ScopeTable} {root flat : Node}
    (h : flatten table root = .ok (flat, table')) :
    (ItemsBecome (ScopeTable.itemsOf root) (ScopeTable.itemsOf flat) ∨ flat = root) ∧
      table'.functionNames = table.functionNames := by
  unfold flatten at h
  split at h
  · next flat' s hRun =>
    cases h
    cases root with
    | block span stmts synthetic =>
      obtain ⟨stmts', s₁, hItems, h⟩ := exists_of_run_bind_ok hRun
      cases h
      obtain ⟨hBecome, hFunctions⟩ := itemsBecome_of_run hItems rfl
      exact ⟨.inl hBecome, hFunctions⟩
    | _ =>
      cases hRun
      exact ⟨.inr rfl, rfl⟩
  · cases h

end

end Syntax.Flattening

end BatchCompiler
