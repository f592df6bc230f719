import BatchCompiler.Proofs.Flattening.Faults
import BatchCompiler.Proofs.Flattening.Settling

/-!
# Faults of flat programs

Lowering a flat program reports the first of the faults of the source: the faults that were found in
an expression are those of what is left of it and of the statements put in front.
-/

namespace BatchCompiler

open Lowering

namespace Syntax.Flattening

def faultsAt : Position → Node → List Objection
  | .place => placeFaults
  | .index => indexFaults
  | .arithmetic => arithFaults
  | .text => textFaults
  | .condition => conditionFaults
  | .value => valueFaults

theorem faultsAt_ident (p : Position) (span : Span) (name : String) :
    faultsAt p (.ident span name) = [] := by
  cases p <;> rfl

theorem faultsAt_subscript (p : Position) (span : Span) (array index : Node) :
    faultsAt p (.subscript span array index) = placeFaults array ++ indexFaults index := by
  cases p <;> rfl

def faultsIn : List (Position × Node) → List Node → List Objection
  | (p, _) :: xs, n :: ns => faultsAt p n ++ faultsIn xs ns
  | _, _ => []

def foundIn (inFunction : Bool) : List (Position × Node) → Found
  | [] => {}
  | (p, n) :: xs => found inFunction p n ++ foundIn inFunction xs

section

variable {op : TokenKind}

theorem unaryFaults_of_isPrefixOp (h : Parser.isPrefixOp op = true) : unaryFaults op = [] := by
  cases op <;> first | rfl | cases h

theorem arithOp?_isSome_of_precedence? (h : (Parser.precedence? op).isSome = true)
    (hOp : op.isRelational = false) : (arithOp? op).isSome = true := by
  revert h hOp
  cases op <;> decide

theorem cmpOp?_isSome_of_isRelational (h : op.isRelational = true) : (cmpOp? op).isSome = true := by
  cases op <;> first | rfl | cases h

theorem cmpOp?_isSome_of_isEquality (h : (op == .eq || op == .ne) = true) :
    (cmpOp? op).isSome = true := by
  rcases Bool.or_eq_true_iff.mp h with h | h
  · rw [eq_of_beq h]
    rfl
  · rw [eq_of_beq h]
    rfl

end

theorem statementFaults_assignTruth (inFunction : Bool) (span : Span) (cond place : Node) :
    statementFaults inFunction (assignTruth span cond place) =
      conditionFaults cond ++ placeFaults place ++ placeFaults place := by
  simp [assignTruth, statementFaults, statementsFaults, valueFaults, arithFaults, Node.isAbsent]

theorem Found.append_eq (a b : Found) : a ++ b = ⟨a.before ++ b.before, a.here ++ b.here⟩ :=
  rfl

theorem foundIn_map (inFunction : Bool) (p : Position) (ns : List Node) :
    foundIn inFunction (ns.map fun n => (p, n)) = foundAll inFunction p ns := by
  induction ns with
  | nil => simp only [List.map_nil, foundIn, foundAll]
  | cons n rest ih => rw [List.map_cons, foundIn, ih, foundAll]

theorem found_eq (inFunction : Bool) (p : Position) (n : Node) :
    found inFunction p n = treated inFunction p n (foundIn inFunction (parts n)) := by
  cases n <;> simp [found, parts, Node.operands, foundIn, foundIn_map, Found.append_eq]

section

variable {inFunction : Bool} {p : Position} {n : Node} {es : List Node}

theorem treated_of_leave (hn : n.isExpression = true) (h : treatment inFunction p n = .leave) :
    treated inFunction p n (foundIn inFunction (parts n)) = { here := faultsAt p n } := by
  cases n with
  | bool | number | float | string | ident | list | subscript | unary | concat | strCompare | call =>
    cases p <;> cases inFunction <;> first | rfl | cases h
  | binary span op l r =>
    cases hOp : op.isRelational <;> cases p <;> cases inFunction <;>
      first | rfl | simp [treatment, hOp] at h
  | _ => cases hn

theorem treated_of_keep (h : treatment inFunction p n = .keep) (x : Found) :
    treated inFunction p n x = if isCaptured p n then ⟨x.before, [.problem .capturedCall]⟩ else x := by
  cases n with
  | binary span op l r =>
    cases hOp : op.isRelational <;> cases p <;> cases inFunction <;>
      simp_all [treatment, treated, Node.isAdmitted, isMoved, isCaptured]
  | _ => cases p <;> cases inFunction <;> first | rfl | cases h

theorem treated_of_moves (h : (treatment inFunction p n).moves = true) (x : Found) :
    treated inFunction p n x = x.moved := by
  cases n with
  | binary span op l r =>
    cases hOp : op.isRelational <;> cases p <;> cases inFunction <;>
      simp_all [treatment, Treatment.moves, treated, Node.isAdmitted, isMoved]
  | _ => cases p <;> cases inFunction <;> first | rfl | cases h

theorem faultsIn_map (p : Position) {ns ms : List Node} (h : ms.length = ns.length) :
    faultsIn (ns.map fun n => (p, n)) ms = ms.flatMap (faultsAt p) := by
  induction ns generalizing ms with
  | nil =>
    cases ms with
    | nil => rfl
    | cons => cases h
  | cons n rest ih =>
    cases ms with
    | nil => cases h
    | cons m others => rw [List.map_cons, faultsIn, ih (Nat.succ.inj h), List.flatMap_cons]

theorem valuesFaults_eq (ns : List Node) : valuesFaults ns = ns.flatMap valueFaults := by
  induction ns with
  | nil => rfl
  | cons n rest ih => rw [valuesFaults, ih, List.flatMap_cons]

theorem faultsIn_one (p : Position) (n m : Node) : faultsIn [(p, n)] [m] = faultsAt p m :=
  List.append_nil _

theorem faultsIn_two (p q : Position) (a b c d : Node) :
    faultsIn [(p, a), (q, b)] [c, d] = faultsAt p c ++ faultsAt q d := by
  rw [faultsIn, faultsIn_one]

theorem foundIn_one (inFunction : Bool) (p : Position) (n : Node) :
    foundIn inFunction [(p, n)] = found inFunction p n := by
  simp [foundIn, Found.append_eq]

theorem foundIn_two (inFunction : Bool) (p q : Position) (a b : Node) :
    foundIn inFunction [(p, a), (q, b)] = found inFunction p a ++ found inFunction q b := by
  rw [foundIn, foundIn_one]

theorem faultsAt_rebuild (hn : n.isExpression = true) (h : treatment inFunction p n = .keep)
    (hes : es.length = (parts n).length) :
    faultsAt p (rebuild n es) =
      if isCaptured p n then [.problem .capturedCall] else faultsIn (parts n) es := by
  cases n with
  | subscript span array index =>
    obtain ⟨a, b, rfl⟩ := List.length_eq_two.mp hes
    simp only [parts, Node.operands, faultsIn_two, rebuild, faultsAt_subscript]
    cases p <;> rfl
  | unary span op e =>
    obtain ⟨e', rfl⟩ := List.length_eq_one_iff.mp hes
    simp only [Node.isExpression, Bool.and_eq_true] at hn
    have hArith : arithFaults (.unary span op e') = arithFaults e' := by
      rw [arithFaults, unaryFaults_of_isPrefixOp hn.1.1, List.append_nil]
    simp only [parts, Node.operands, faultsIn_one]
    cases p with
    | arithmetic | value => exact hArith
    | _ => cases inFunction <;> cases h
  | binary span op l r =>
    obtain ⟨a, b, rfl⟩ := List.length_eq_two.mp hes
    simp only [Node.isExpression, Bool.and_eq_true] at hn
    simp only [parts, Node.operands, faultsIn_two]
    cases hOp : op.isRelational with
    | true =>
      have hCondition : conditionFaults (.binary span op a b) = textFaults a ++ textFaults b := by
        rw [conditionFaults, if_pos hOp, compareFaults, if_pos (cmpOp?_isSome_of_isRelational hOp)]
      rw [show op.operandPosition = .text from if_pos hOp]
      cases p with
      | condition => exact hCondition
      | _ => cases inFunction <;> simp [treatment, hOp] at h
    | false =>
      have hArith : arithFaults (.binary span op a b) = arithFaults a ++ arithFaults b :=
        if_pos (arithOp?_isSome_of_precedence? hn.1.1.1 hOp)
      rw [show op.operandPosition = .arithmetic from if_neg (by simp [hOp])]
      cases p with
      | arithmetic | value => exact hArith
      | _ => cases inFunction <;> simp [treatment, hOp] at h
  | concat span l r =>
    obtain ⟨a, b, rfl⟩ := List.length_eq_two.mp hes
    simp only [parts, Node.operands, faultsIn_two]
    cases p <;> first | rfl | cases h
  | strCompare span op l r =>
    obtain ⟨a, b, rfl⟩ := List.length_eq_two.mp hes
    simp only [Node.isExpression, Bool.and_eq_true] at hn
    simp only [parts, Node.operands, faultsIn_two]
    cases p with
    | condition => exact if_pos (cmpOp?_isSome_of_isEquality hn.1.1.1)
    | _ => cases inFunction <;> cases h
  | list span elems =>
    cases p with
    | value =>
      simp only [parts, Node.operands, faultsIn_map _ (by simpa [parts, Node.operands] using hes)]
      exact valuesFaults_eq es
    | _ => cases h
  | call span callee args => cases p <;> first | rfl | cases h
  | bool => cases p <;> cases inFunction <;> cases h
  | _ => cases p <;> cases h

theorem isCaptured_of_moves (h : (treatment inFunction p n).moves = true) (q : Position) :
    isCaptured q n = false := by
  cases n with
  | call => cases p <;> cases h
  | _ => cases q <;> rfl

theorem statementFaults_filling (hn : n.isExpression = true)
    (h : (treatment inFunction p n).moves = true) (hes : es.length = (parts n).length) (span : Span)
    (name : String) :
    statementFaults inFunction
        (filling (treatment inFunction p n) span (rebuild n es) (.ident span name)) =
      faultsIn (parts n) es := by
  have hFilling : ∀ t e, statementFaults inFunction (filling t span e (.ident span name)) =
      faultsAt t.position e := by
    intro t e
    cases t with
    | truth => simp [filling, statementFaults_assignTruth, faultsAt, Treatment.position, placeFaults]
    | _ => rfl
  rw [hFilling]
  rcases treatment_of_moves h with hKeep | ⟨hValue, bool, v, rfl⟩
  · rw [faultsAt_rebuild hn hKeep hes, isCaptured_of_moves h, if_neg Bool.false_ne_true]
  · rw [hValue, List.length_eq_zero_iff.mp hes]
    rfl

theorem faultsAt_remainder (inFunction : Bool) (p : Position) (n : Node) (span : Span)
    (name : String) :
    faultsAt p (remainder (treatment inFunction p n) span (.ident span name)) = [] := by
  unfold remainder
  split
  · next hZero =>
    rw [position_of_zero hZero]
    rfl
  · exact faultsAt_ident p span name

theorem Turns.faults {xs : List (Position × Node)} {ns new : List Node}
    (h : Turns inFunction xs ns new) (hxs : ∀ x ∈ xs, x.2.isExpression = true) :
    statementsFaults inFunction new = (foundIn inFunction xs).before ∧
      faultsIn xs ns = (foundIn inFunction xs).here := by
  induction h with
  | nil => exact ⟨rfl, rfl⟩
  | leave _ hLeave _ ih =>
    obtain ⟨hn, hRest⟩ := List.forall_mem_cons.mp hxs
    obtain ⟨hBefore, hHere⟩ := ih hRest
    rw [foundIn, found_eq, treated_of_leave hn hLeave, faultsIn, hBefore, hHere]
    exact ⟨rfl, rfl⟩
  | @keep p n xs es ns before new hKeep hParts _ _ ihParts ih =>
    obtain ⟨hn, hRest⟩ := List.forall_mem_cons.mp hxs
    obtain ⟨hBefore, hHere⟩ := ih hRest
    obtain ⟨hBeforeParts, hHereParts⟩ := ihParts (isExpression_parts hn)
    rw [foundIn, found_eq, treated_of_keep hKeep, faultsIn, statementsFaults_append, hBefore, hHere,
      hBeforeParts, faultsAt_rebuild hn hKeep hParts.length_eq, hHereParts]
    split <;> exact ⟨rfl, rfl⟩
  | @move p n xs es ns before new number hMoves hParts _ _ ihParts ih =>
    obtain ⟨hn, hRest⟩ := List.forall_mem_cons.mp hxs
    obtain ⟨hBefore, hHere⟩ := ih hRest
    obtain ⟨hBeforeParts, hHereParts⟩ := ihParts (isExpression_parts hn)
    have hPresent := (stands_filling (treatment inFunction p n) n.span (rebuild n es)
      (.ident n.span (temporaryName number))).isAbsent
    rw [foundIn, found_eq, treated_of_moves hMoves, faultsIn, faultsAt_remainder,
      statementsFaults_append, statementsFaults, hPresent, if_neg Bool.false_ne_true,
      statementFaults_filling hn hMoves hParts.length_eq, hBefore, hHere, hBeforeParts, hHereParts]
    exact ⟨(List.append_assoc _ _ _).symm, rfl⟩

end

section

variable {inFunction : Bool} {n : Node} {stmts ns out : List Node}

theorem statementFaults_single (h : ∀ n ∈ stmts, Stands n) (span : Span) :
    statementFaults inFunction (single span stmts) = statementsFaults inFunction stmts := by
  match stmts with
  | [n] => exact (statementsFaults_singleton _ (h n List.mem_cons_self).isAbsent).symm
  | [] | _ :: _ :: _ => rfl

theorem isFunc_of_isStatement (h : n.isStatement = true) : n.isFunc = false := by
  cases n with
  | func => cases h
  | _ => rfl

theorem statementsFound_bodyStatements (inFunction : Bool) (n : Node) :
    statementsFound inFunction (bodyStatements n) = statementFound inFunction n := by
  cases n <;> simp [bodyStatements, Node.isAbsent, statementsFound, statementFound]

theorem statementFaults_gathered (h : n.isAbsent = true ∨ n.isStatement = true)
    (hStmts : Becomes inFunction (bodyStatements n) stmts) :
    statementFaults inFunction (gathered n stmts) = statementsFaults inFunction stmts := by
  have hStands := hStmts.stands (forall_bodyStatements (h.imp_right isFunc_of_isStatement))
  unfold gathered
  split
  · next hAbsent =>
    rw [bodyStatements, if_pos hAbsent] at hStmts
    cases hStmts
    rfl
  · exact statementFaults_single hStands n.span

theorem statementsFaults_cons (inFunction : Bool) (hn : n.isAbsent = false) (ns : List Node) :
    statementsFaults inFunction (n :: ns) =
      statementFaults inFunction n ++ statementsFaults inFunction ns := by
  rw [statementsFaults, hn, if_neg Bool.false_ne_true]

theorem Becomes.faults (h : Becomes inFunction ns out) (hns : ∀ n ∈ ns, n.isStatement = true) :
    statementsFaults inFunction out = statementsFound inFunction ns := by
  induction h with
  | nil => rfl
  | @passed n _ _ hPassed _ ih =>
    obtain ⟨hn, hRest⟩ := List.forall_mem_cons.mp hns
    rw [statementsFaults, statementsFound, ih hRest]
    cases n with
    | ret span e =>
      cases e with
      | absent => rfl
      | _ => cases hPassed
    | absent | assign | block | branch | call | loop => cases hPassed
    | comment | empty | globals => rfl
    | _ => cases hn
  | block _ _ ihStmts ih =>
    obtain ⟨hn, hRest⟩ := List.forall_mem_cons.mp hns
    simp only [Node.isStatement, Bool.and_eq_true, Node.areStatements_iff] at hn
    rw [statementsFaults_cons _ (by rfl), statementsFound, ih hRest, statementFaults, statementFound,
      ihStmts hn.2]
  | assign hRhs hTurns _ ih =>
    obtain ⟨hn, hRest⟩ := List.forall_mem_cons.mp hns
    simp only [Node.isStatement, Bool.and_eq_true] at hn
    obtain ⟨hBefore, hHere⟩ := hTurns.faults (by simpa using ⟨hn.1.2, hn.2⟩)
    rw [foundIn_two] at hBefore hHere
    rw [faultsIn_two, faultsAt, faultsAt] at hHere
    rw [statementsFaults_append, statementsFaults_cons _ (by rfl), statementsFound, ih hRest, hBefore,
      statementFaults, hHere, statementFound, hRhs, if_neg Bool.false_ne_true, Found.all,
      List.append_assoc]
  | decide hRhs hTurns _ ih =>
    obtain ⟨hn, hRest⟩ := List.forall_mem_cons.mp hns
    simp only [Node.isStatement, Bool.and_eq_true] at hn
    obtain ⟨first, others, rfl, hLhs, hCond⟩ := hTurns.exists_of_cons
    obtain ⟨hBefore, hHere⟩ := hLhs.faults (by simpa using hn.1.2)
    obtain ⟨hBefore', hHere'⟩ := hCond.faults (by simpa using hn.2)
    rw [foundIn_one] at hBefore hHere hBefore' hHere'
    rw [faultsIn_one, faultsAt] at hHere
    rw [faultsIn_one, faultsAt] at hHere'
    rw [statementsFaults_append, statementsFaults_append, statementsFaults_cons _ (by rfl),
      statementsFound, ih hRest, hBefore, hBefore', statementFaults_assignTruth, hHere, hHere',
      statementFound, hRhs, if_pos rfl]
    simp only [List.append_assoc, Found.append_eq]
  | call hTurns _ ih =>
    obtain ⟨hn, hRest⟩ := List.forall_mem_cons.mp hns
    simp only [Node.isStatement, Node.isExpression, Bool.and_eq_true, Node.areExpressions_iff] at hn
    obtain ⟨hBefore, hHere⟩ := hTurns.faults (by simpa using hn.2)
    obtain ⟨calleeSpan, name, rfl⟩ := Node.exists_eq_ident hn.1
    rw [foundIn_map] at hBefore hHere
    rw [faultsIn_map _ (by simpa using hTurns.length_eq)] at hHere
    rw [statementsFaults_append, statementsFaults_cons _ (by rfl), statementsFound, ih hRest, hBefore,
      statementFaults, calleeFaults, List.nil_append, textsFaults, statementFound, Found.all, ← hHere,
      List.append_assoc]
    rfl
  | branch hTurns hThen hElse _ ihThen ihElse ih =>
    obtain ⟨hn, hRest⟩ := List.forall_mem_cons.mp hns
    simp only [Node.isStatement, Bool.and_eq_true, Bool.or_eq_true] at hn
    obtain ⟨hBefore, hHere⟩ := hTurns.faults (by simpa using hn.1.1)
    rw [foundIn_one] at hBefore hHere
    rw [faultsIn_one, faultsAt] at hHere
    rw [statementsFaults_append, statementsFaults_cons _ (by rfl), statementsFound, ih hRest, hBefore,
      statementFaults, hHere, statementFaults_gathered (.inr hn.1.2) hThen,
      statementFaults_gathered hn.2 hElse, ihThen (forall_bodyStatements (.inr hn.1.2)),
      ihElse (forall_bodyStatements hn.2), statementsFound_bodyStatements,
      statementsFound_bodyStatements, statementFound, Found.all]
    simp only [List.append_assoc]
  | loop hTurns hBody _ ihBody ih =>
    obtain ⟨hn, hRest⟩ := List.forall_mem_cons.mp hns
    simp only [Node.isStatement, Bool.and_eq_true] at hn
    obtain ⟨hBefore, hHere⟩ := hTurns.faults (by simpa using hn.1)
    have hStmts := hBody.stands (List.forall_mem_singleton.mpr (isFunc_of_isStatement hn.2))
    rw [foundIn_one] at hBefore hHere
    rw [faultsIn_one, faultsAt] at hHere
    rw [statementsFaults_append, statementsFaults_cons _ (by rfl), statementsFound, ih hRest, hBefore,
      statementFaults, hHere,
      statementFaults_single (List.forall_mem_append.mpr ⟨hStmts, hTurns.stands_new⟩),
      statementsFaults_append, hBefore, ihBody (List.forall_mem_singleton.mpr hn.2),
      statementsFound, statementsFound, statementFound, Found.all]
    simp only [List.append_assoc, List.append_nil]
  | ret hTurns _ ih =>
    obtain ⟨hn, hRest⟩ := List.forall_mem_cons.mp hns
    obtain ⟨hPresent, hPresent'⟩ := hTurns.isAbsent
    rw [List.forall_mem_singleton] at hPresent hPresent'
    rw [Node.isStatement, hPresent, Bool.false_or] at hn
    obtain ⟨hBefore, hHere⟩ := hTurns.faults (by simpa using hn)
    rw [foundIn_one] at hBefore hHere
    rw [faultsIn_one, faultsAt] at hHere
    rw [statementsFaults_append, statementsFaults_cons _ (by rfl), statementsFound, ih hRest, hBefore,
      statementFaults, hPresent', if_neg Bool.false_ne_true, hHere, statementFound, hPresent,
      if_neg Bool.false_ne_true, ← List.append_assoc]
    split <;> rfl

theorem ItemsBecome.bodyFaults_eq (h : ItemsBecome ns out) (hns : ∀ n ∈ ns, n.isItem = true) :
    (out.filter Node.isFunc).flatMap bodyFaults = (ns.filter Node.isFunc).flatMap bodyFound := by
  induction h with
  | nil => rfl
  | func hBody _ ih =>
    obtain ⟨hn, hRest⟩ := List.forall_mem_cons.mp hns
    simp only [Node.isItem, Bool.and_eq_true] at hn
    rw [List.filter_cons_of_pos rfl, List.filter_cons_of_pos rfl, List.flatMap_cons,
      List.flatMap_cons, ih hRest, bodyFaults, bodyFound, statementFaults_gathered (.inr hn.2) hBody,
      hBody.faults (forall_bodyStatements (.inr hn.2)), statementsFound_bodyStatements]
  | statement hFunc hStmts _ ih =>
    rw [List.filter_append, (filter_stands (hStmts.stands (List.forall_mem_singleton.mpr hFunc))).2,
      List.nil_append, ih (List.forall_mem_cons.mp hns).2,
      List.filter_cons_of_neg (by simp [hFunc])]

theorem ItemsBecome.isDeclared {table : ScopeTable} (h : ItemsBecome ns out)
    (hns : ∀ n ∈ ns, IsDeclared table n) : ∀ n ∈ out, n.isAbsent = false ∧ IsDeclared table n := by
  induction h with
  | nil => exact List.forall_mem_nil _
  | func _ _ ih =>
    obtain ⟨hn, hRest⟩ := List.forall_mem_cons.mp hns
    exact List.forall_mem_cons.mpr ⟨⟨rfl, hn⟩, ih hRest⟩
  | statement hFunc hStmts _ ih =>
    refine List.forall_mem_append.mpr ⟨fun m hm => ?_, ih (List.forall_mem_cons.mp hns).2⟩
    have hStands := hStmts.stands (List.forall_mem_singleton.mpr hFunc) m hm
    refine ⟨hStands.isAbsent, ?_⟩
    cases m with
    | func => cases hStands.isFunc
    | _ => trivial

theorem mem_functionNames_of_isDeclared {table : ScopeTable} (h : ∀ n ∈ ns, IsDeclared table n) :
    ∀ name ∈ ScopeTable.declaredFunctions ns, name ∈ table.functionNames := by
  induction ns with
  | nil => exact List.forall_mem_nil _
  | cons n rest ih =>
    obtain ⟨hn, hRest⟩ := List.forall_mem_cons.mp h
    cases n with
    | func => exact List.forall_mem_cons.mpr ⟨hn.2.1, ih hRest⟩
    | _ => exact ih hRest

end

/-- Flattening succeeds on what parsing can produce, and lowering then reports the first fault of the
source. -/
theorem exists_flatten_eq {settings : Settings} {table : ScopeTable} {root : Node}
    (hRoot : root.isProgram = true)
    (hDeclared : ∀ n ∈ ScopeTable.itemsOf root, IsDeclared table n) :
    ∃ flat flatTable, flatten table root = .ok (flat, flatTable) ∧
      fault? (lower settings flatTable flat).1 = (sourceFaults root).head? := by
  obtain ⟨span, ns, out, synthetic, table', rfl, hFlatten, hItems, hNames⟩ :=
    exists_itemsBecome hRoot (mem_functionNames_of_isDeclared hDeclared)
  simp only [Node.isProgram, Bool.and_eq_true, List.all_eq_true] at hRoot
  have hTop := hItems.statements.faults fun n hn => by
    obtain ⟨hMem, hFunc⟩ := List.mem_filter.mp hn
    exact isStatement_of_isItem (by simpa using hFunc) (hRoot.2 n hMem)
  have hOut := hItems.isDeclared hDeclared
  have hOutDeclared : ∀ n ∈ out, IsDeclared table' n := by
    intro n hn
    have hIs := (hOut n hn).2
    cases n with
    | func => simpa only [IsDeclared, hNames] using hIs
    | _ => trivial
  refine ⟨_, _, hFlatten, ?_⟩
  rw [fault?_lower (fun n hn => (hOut n hn).1) hOutDeclared]
  have hFaults : programFaults (.block span out synthetic) = sourceFaults (.block span ns synthetic) :=
    congrArg₂ _ hTop (hItems.bodyFaults_eq hRoot.2)
  rw [hFaults]

end Syntax.Flattening

end BatchCompiler
