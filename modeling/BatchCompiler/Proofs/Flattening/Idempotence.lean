import BatchCompiler.Proofs.Flattening.Programs
import BatchCompiler.Proofs.Flattening.Settling
import Mathlib

/-!
# Flattening twice

A flat program is a fixed point of flattening. Whatever an expression is turned into may stay in its
position, and so may everything in the statements that are put in front of it. So a second pass finds
nothing to move and asks for no temporary.
-/

namespace BatchCompiler.Syntax.Flattening

variable {inFunction : Bool} {p : Position} {n lhs cond body : Node} {xs : List (Position × Node)}
  {es ns new stmts out : List Node} {span : Span} {s : State}

/-- In such a region the expression does not move, and flattening does nothing to it. -/
structure Stays (inFunction : Bool) (p : Position) (n : Node) : Prop where
  moves : (treatment inFunction p n).moves = false
  run : ∀ s : State, s.region.inFunction = inFunction → (flattenAt p n).run s = .ok (n, s)

theorem stays_of_leave (hAbsent : n.isAbsent = false) (h : treatment inFunction p n = .leave) :
    Stays inFunction p n := by
  refine ⟨by rw [h]; rfl, fun s hs => ?_⟩
  rw [run_flattenAt hAbsent, hs, turned, if_pos h]
  rfl

theorem run_flattenAll_of_stays (h : ∀ x ∈ xs, Stays inFunction x.1 x.2)
    (hs : s.region.inFunction = inFunction) : (flattenAll xs).run s = .ok (xs.map Prod.snd, s) := by
  induction xs with
  | nil => rfl
  | cons x rest ih =>
    obtain ⟨hx, hRest⟩ := List.forall_mem_cons.mp h
    rw [flattenAll, run_bind_of_ok (hx.run s hs), run_bind_of_ok (ih hRest)]
    rfl

theorem rebuild_parts (n : Node) : rebuild n ((parts n).map Prod.snd) = n := by
  cases n <;> simp [rebuild, parts, Node.operands, Function.comp_def]

theorem stays_of_keep (h : treatment inFunction p n = .keep)
    (hParts : ∀ x ∈ parts n, Stays inFunction x.1 x.2) : Stays inFunction p n := by
  have hAbsent : n.isAbsent = false := by
    cases n with
    | absent => cases p <;> cases h
    | _ => rfl
  refine ⟨by rw [h]; rfl, fun s hs => ?_⟩
  rw [run_flattenAt hAbsent, hs, turned, if_neg (by rw [h]; decide),
    run_bind_of_ok (run_flattenAll_of_stays hParts hs), h, rebuild_parts]
  rfl

def replaced (xs : List (Position × Node)) (ns : List Node) : List (Position × Node) :=
  List.zipWith (fun x n => (x.1, n)) xs ns

theorem replaced_map (p : Position) (h : es.length = ns.length) :
    replaced (ns.map fun n => (p, n)) es = es.map fun e => (p, e) := by
  induction ns generalizing es with
  | nil => rw [List.length_eq_zero_iff.mp h]; rfl
  | cons n rest ih =>
    cases es with
    | nil => cases h
    | cons e others => exact congrArg ((p, e) :: ·) (ih (Nat.succ.inj h))

theorem parts_rebuild (h : es.length = (parts n).length) :
    parts (rebuild n es) = replaced (parts n) es := by
  cases n with
  | subscript | binary | concat | strCompare =>
    obtain ⟨a, b, rfl⟩ := List.length_eq_two.mp h
    rfl
  | unary =>
    obtain ⟨e, rfl⟩ := List.length_eq_one_iff.mp h
    rfl
  | list | call => exact (replaced_map _ (by simpa [parts, Node.operands] using h)).symm
  | _ =>
    rw [List.length_eq_zero_iff.mp h]
    rfl

theorem treatment_rebuild (inFunction : Bool) (p : Position) (n : Node) (es : List Node) :
    treatment inFunction p (rebuild n es) = treatment inFunction p n := by
  unfold rebuild
  split <;> cases p <;> rfl

theorem isComparison_of_stays (h : Stays inFunction .value n) : n.isComparison = false := by
  have hMoves := h.moves
  cases n with
  | strCompare => cases hMoves
  | binary span op l r =>
    cases hOp : op.isRelational <;>
      simp_all [treatment, Treatment.moves, Node.isComparison]
  | _ => rfl

def Still (inFunction : Bool) (n : Node) : Prop :=
  ∀ s : State, s.region.inFunction = inFunction → s.before = [] → (statement n).run s = .ok ([n], s)

theorem still_all (h : ∀ n ∈ ns, Still inFunction n) (hs : s.region.inFunction = inFunction)
    (hBefore : s.before = []) : (statements ns).run s = .ok (ns, s) := by
  induction ns with
  | nil => rfl
  | cons n rest ih =>
    obtain ⟨hn, hRest⟩ := List.forall_mem_cons.mp h
    rw [statements, run_bind_of_ok (hn s hs hBefore), run_bind_of_ok (ih hRest)]
    rfl

theorem run_flush {β : Type} (h : s.before = []) (k : List Node → Flat β) :
    (flush >>= k).run s = (k []).run s := by
  obtain ⟨table, region, before⟩ := s
  cases h
  rfl

theorem still_assign {rhs : Node} (hLhs : Stays inFunction .place lhs)
    (hRhs : Stays inFunction .value rhs) : Still inFunction (.assign span lhs rhs) := by
  intro s hs hBefore
  have hPlace : (place lhs).run s = .ok (lhs, s) := hLhs.run s hs
  have hValue : (value rhs).run s = .ok (rhs, s) := hRhs.run s hs
  rw [statement, run_bind_of_ok hPlace, isComparison_of_stays hRhs, if_neg Bool.false_ne_true,
    run_bind_of_ok hValue, run_flush hBefore]
  rfl

theorem stays_ident (inFunction : Bool) (p : Position) (span : Span) (name : String) :
    Stays inFunction p (.ident span name) :=
  stays_of_leave rfl (by cases p <;> rfl)

theorem still_block (h : ∀ n ∈ ns, Still inFunction n) (synthetic : Bool) :
    Still inFunction (.block span ns synthetic) := by
  intro s hs hBefore
  rw [statement, run_bind_of_ok (still_all h hs hBefore)]
  rfl

theorem still_single (h : ∀ n ∈ stmts, Still inFunction n) : Still inFunction (single span stmts) := by
  match stmts with
  | [n] => exact h n List.mem_cons_self
  | [] | _ :: _ :: _ => exact still_block h true

theorem run_body_of_still {β : Type} {k : Node → Flat β}
    (h : n.isAbsent = true ∨ Still inFunction n) (hs : s.region.inFunction = inFunction)
    (hBefore : s.before = []) :
    (if n.isAbsent = true then pure .absent >>= k
      else statement n >>= fun stmts => pure (single n.span stmts) >>= k).run s = (k n).run s := by
  split
  · next hAbsent =>
    cases n with
    | absent => rfl
    | _ => cases hAbsent
  · next hPresent =>
    rw [run_bind_of_ok ((h.resolve_left hPresent) s hs hBefore)]
    rfl

theorem still_branch {thenBody elseBody : Node} (hCond : Stays inFunction .condition cond)
    (hThen : thenBody.isAbsent = true ∨ Still inFunction thenBody)
    (hElse : elseBody.isAbsent = true ∨ Still inFunction elseBody) :
    Still inFunction (.branch span cond thenBody elseBody) := by
  intro s hs hBefore
  have hRun : (condition cond).run s = .ok (cond, s) := hCond.run s hs
  rw [statement, run_bind_of_ok hRun, run_flush hBefore, run_body_of_still hThen hs hBefore,
    run_body_of_still hElse hs hBefore]
  rfl

theorem still_loop (hCond : Stays inFunction .condition cond) (hBody : Still inFunction body) :
    Still inFunction (.loop span cond body) := by
  intro s hs hBefore
  have hRun : (condition cond).run s = .ok (cond, s) := hCond.run s hs
  rw [statement, run_bind_of_ok hRun, run_flush hBefore, run_bind_of_ok (hBody s hs hBefore)]
  rfl

theorem still_ret {e : Node} (hAbsent : e.isAbsent = false) (he : Stays inFunction .value e) :
    Still inFunction (.ret span e) := by
  intro s hs hBefore
  have hRun : (value e).run s = .ok (e, s) := he.run s hs
  rw [statement, hAbsent, if_neg Bool.false_ne_true, run_bind_of_ok hRun, run_flush hBefore]
  rfl

theorem still_call {callee : Node} {args : List Node} (h : ∀ a ∈ args, Stays inFunction .text a) :
    Still inFunction (.call span callee args) := by
  intro s hs hBefore
  have hCall : Stays inFunction .text (.call span callee args) :=
    stays_of_keep rfl (by simpa [parts] using h)
  have hRun : (stringOf (.call span callee args)).run s = .ok (.call span callee args, s) :=
    hCall.run s hs
  rw [statement, run_bind_of_ok hRun, run_flush hBefore]
  rfl

theorem still_assignTruth (hCond : Stays inFunction .condition cond)
    (hLhs : Stays inFunction .place lhs) : Still inFunction (assignTruth span cond lhs) := by
  have hArm : ∀ v, Still inFunction (.block span [.assign span lhs (.number span v)] true) := fun v =>
    still_block (List.forall_mem_singleton.mpr (still_assign hLhs (stays_of_leave rfl rfl))) true
  exact still_branch hCond (.inr (hArm 1)) (.inr (hArm 0))

theorem Turns.stays (h : Turns inFunction xs ns new) :
    (∀ x ∈ replaced xs ns, Stays inFunction x.1 x.2) ∧ ∀ n ∈ new, Still inFunction n := by
  induction h with
  | nil => exact ⟨List.forall_mem_nil _, List.forall_mem_nil _⟩
  | leave hAbsent hn _ ih => exact ⟨List.forall_mem_cons.mpr ⟨stays_of_leave hAbsent hn, ih.1⟩, ih.2⟩
  | @keep p n _ es _ _ _ hn hParts _ _ ihParts ih =>
    rw [← parts_rebuild hParts.length_eq] at ihParts
    refine ⟨List.forall_mem_cons.mpr ⟨stays_of_keep ?_ ihParts.1, ih.1⟩,
      List.forall_mem_append.mpr ⟨ihParts.2, ih.2⟩⟩
    rw [treatment_rebuild, hn]
  | @move p n _ es _ _ _ number hn hParts _ _ ihParts ih =>
    rw [← parts_rebuild hParts.length_eq] at ihParts
    have hTemporary := fun q => stays_ident inFunction q n.span (temporaryName number)
    -- Where the expression moves to, it stays.
    have hWhole : Stays inFunction (treatment inFunction p n).position (rebuild n es) := by
      rcases treatment_of_moves hn with hKeep | ⟨hValue, span, v, rfl⟩
      · exact stays_of_keep (by rw [treatment_rebuild, hKeep]) ihParts.1
      · rw [hValue]
        exact stays_of_leave rfl rfl
    refine ⟨List.forall_mem_cons.mpr ⟨?_, ih.1⟩,
      List.forall_mem_append.mpr ⟨ihParts.2, List.forall_mem_cons.mpr ⟨?_, ih.2⟩⟩⟩
    · unfold remainder
      split
      · next hZero =>
        rw [position_of_zero hZero]
        refine stays_of_keep rfl ?_
        simpa [parts, Node.operands] using ⟨hTemporary .text, stays_of_leave rfl rfl⟩
      · exact hTemporary p
    · unfold filling
      split
      · next hTruth =>
        rw [hTruth] at hWhole
        exact still_assignTruth hWhole (hTemporary .place)
      · next hTruth =>
        have hPosition : (treatment inFunction p n).position = .value := by
          cases ht : treatment inFunction p n with
          | truth => exact absurd ht hTruth
          | _ => rfl
        rw [hPosition] at hWhole
        exact still_assign (hTemporary .place) hWhole

theorem still_gathered (h : ∀ n ∈ ns, Still inFunction n) :
    (gathered body ns).isAbsent = true ∨ Still inFunction (gathered body ns) := by
  unfold gathered
  split
  · exact .inl rfl
  · exact .inr (still_single h)

theorem Becomes.still (h : Becomes inFunction ns out) : ∀ n ∈ out, Still inFunction n := by
  have hBehind : ∀ {n : Node} {new out : List Node}, (∀ n ∈ new, Still inFunction n) →
      Still inFunction n → (∀ n ∈ out, Still inFunction n) →
      ∀ m ∈ new ++ n :: out, Still inFunction m :=
    fun hNew hn hOut => List.forall_mem_append.mpr ⟨hNew, List.forall_mem_cons.mpr ⟨hn, hOut⟩⟩
  induction h with
  | nil => exact List.forall_mem_nil _
  | @passed n _ _ hn _ ih =>
    refine List.forall_mem_cons.mpr ⟨fun s _ _ => ?_, ih⟩
    cases n with
    | absent | block | assign | call | branch | loop => cases hn
    | ret span e =>
      cases e with
      | absent => rfl
      | _ => cases hn
    | _ => rfl
  | block _ _ ihStmts ih => exact List.forall_mem_cons.mpr ⟨still_block ihStmts _, ih⟩
  | assign _ hTurns _ ih =>
    obtain ⟨hStays, hNew⟩ := hTurns.stays
    simp only [replaced, List.zipWith, List.forall_mem_cons] at hStays
    exact hBehind hNew (still_assign hStays.1 hStays.2.1) ih
  | decide _ hTurns _ ih =>
    obtain ⟨hStays, hNew⟩ := hTurns.stays
    simp only [replaced, List.zipWith, List.forall_mem_cons] at hStays
    exact hBehind hNew (still_assignTruth hStays.2.1 hStays.1) ih
  | call hTurns _ ih =>
    obtain ⟨hStays, hNew⟩ := hTurns.stays
    rw [replaced_map _ (by simpa using hTurns.length_eq), List.forall_mem_map] at hStays
    exact hBehind hNew (still_call hStays) ih
  | branch hTurns _ _ _ ihThen ihElse ih =>
    obtain ⟨hStays, hNew⟩ := hTurns.stays
    exact hBehind hNew (still_branch (hStays _ (List.mem_singleton_self _)) (still_gathered ihThen)
      (still_gathered ihElse)) ih
  | loop hTurns _ _ ihBody ih =>
    obtain ⟨hStays, hNew⟩ := hTurns.stays
    refine hBehind hNew (still_loop (hStays _ (List.mem_singleton_self _)) (still_single ?_)) ih
    exact List.forall_mem_append.mpr ⟨ihBody, hNew⟩
  | ret hTurns _ ih =>
    obtain ⟨hStays, hNew⟩ := hTurns.stays
    exact hBehind hNew (still_ret (hTurns.isAbsent.2 _ (List.mem_singleton_self _))
      (hStays _ (List.mem_singleton_self _))) ih

def StillItems (ns : List Node) : Prop :=
  ∀ s : State, s.before = [] → ∃ s', (items ns).run s = .ok (ns, s') ∧ s'.table = s.table

theorem stillItems_append {stmts ns : List Node} (hStands : ∀ n ∈ stmts, Stands n)
    (hStill : ∀ n ∈ stmts, Still false n) (hRest : StillItems ns) : StillItems (stmts ++ ns) := by
  induction stmts with
  | nil => exact hRest
  | cons n rest ih =>
    intro s hBefore
    obtain ⟨hn, hStands⟩ := List.forall_mem_cons.mp hStands
    obtain ⟨hRun, hStill⟩ := List.forall_mem_cons.mp hStill
    have hFirst := hRun { s with region := .top } rfl hBefore
    obtain ⟨s', hOthers, hTable⟩ := ih hStands hStill { s with region := .top } hBefore
    have hItems := run_items_statement hn.isFunc hFirst hOthers
    exact ⟨s', hItems, hTable⟩

theorem stillItems_func {span : Span} {name : String} {params ns : List Node}
    (hBody : body.isAbsent = true ∨ Still true body) (hRest : StillItems ns) :
    StillItems (.func span name params body :: ns) := by
  intro s hBefore
  have hRun : (functionBody body).run { s with region := .function name } =
      .ok (body, { s with region := .function name }) := by
    rw [functionBody_eq, run_body_of_still (s := { s with region := .function name }) hBody rfl
      hBefore]
    rfl
  obtain ⟨s', hOthers, hTable⟩ := hRest { s with region := .function name } hBefore
  exact ⟨s', run_items_func hRun hOthers, hTable⟩

theorem ItemsBecome.still (h : ItemsBecome ns out) : StillItems out := by
  induction h with
  | nil => exact fun s _ => ⟨s, rfl, rfl⟩
  | func hBody _ ih => exact stillItems_func (still_gathered hBody.still) ih
  | statement hn hStmts _ ih =>
    exact stillItems_append (hStmts.stands (List.forall_mem_singleton.mpr hn)) hStmts.still ih

/-- Flattening is done after one pass: a parsed program has a flat form, and flattening that again,
in the table it left or in any other, gives the same tree back and makes no temporary. -/
theorem flatten_flatten {settings : Settings} {tokens : List Token} {p : Parsed} {root : Node}
    {table : ScopeTable} (hParse : parse? settings tokens = some p) (hRoot : p.result = .ok root)
    (hTable : ScopeTable.build root = .ok table) :
    ∃ flat flatTable, flatten table root = .ok (flat, flatTable) ∧
      ∀ again, flatten again flat = .ok (flat, again) := by
  have hProgram := isProgram_of_parse hParse hRoot
  obtain ⟨span, ns, out, synthetic, flatTable, rfl, hFlatten, hItems, -⟩ :=
    exists_itemsBecome hProgram (ScopeTable.mem_functionNames_of_build hTable)
  refine ⟨_, _, hFlatten, fun again => ?_⟩
  obtain ⟨s, hRun, rfl⟩ := hItems.still { table := again } rfl
  rw [flatten, program, run_bind_of_ok hRun]
  rfl

theorem flatten_flatten_search :
    (parse? {} searchTokens).map Parsed.result = some (.ok searchTree) ∧
    ∃ table, ScopeTable.build searchTree = .ok table ∧
      ∃ flat flatTable, flatten table searchTree = .ok (flat, flatTable) ∧
        ∀ again, flatten again flat = .ok (flat, again) := by
  have hParse : (parse? {} searchTokens).map Parsed.result = some (.ok searchTree) := by cbv
  obtain ⟨p, hp, hResult⟩ := Option.map_eq_some_iff.mp hParse
  have hTable : ∃ table, ScopeTable.build searchTree = .ok table := ⟨_, rfl⟩
  obtain ⟨table, hBuild⟩ := hTable
  exact ⟨hParse, table, hBuild, flatten_flatten hp hResult hBuild⟩

end BatchCompiler.Syntax.Flattening
