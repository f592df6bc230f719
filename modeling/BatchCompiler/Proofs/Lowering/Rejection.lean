import BatchCompiler.Proofs.Lowering.Acceptance

/-!
# What is rejected, and how

A program that parses never makes lowering crash. An error is called internal only if some form stands
for a text that lowering does not expect there: a list, and if flattening is off also arithmetic and
comparisons.
-/

namespace BatchCompiler.Lowering

open Syntax.Flattening

variable {n root : Node} {inFunction : Bool} {ns : List Node} {texts : List Shape}

def unflattenedTexts : List Shape :=
  [.list, .unary, .binary, .strCompare]

def unexpectedTexts (s : Settings) : List Shape :=
  if s.feature .split then [.list] else unflattenedTexts

def faultsOf (s : Settings) (root : Node) : List Objection :=
  if s.feature .split then sourceFaults root else programFaults root

theorem isAbsent_of_isStatement (h : n.isStatement = true) : n.isAbsent = false := by
  cases n with
  | absent => cases h
  | _ => rfl

/-! ### Flattened programs -/

theorem ordinary_foundIn {xs : List (Position × Node)}
    (h : ∀ x ∈ xs, ∀ y ∈ (found inFunction x.1 x.2).all, isOrdinary [.list] y = true) :
    ∀ y ∈ (foundIn inFunction xs).all, isOrdinary [.list] y = true := by
  induction xs with
  | nil => exact List.forall_mem_nil _
  | cons x rest ih =>
    obtain ⟨hx, hRest⟩ := List.forall_mem_cons.mp h
    exact ordinary_append hx (ih hRest)

theorem isPlaced_parts (hn : n.isExpression = true) : ∀ x ∈ parts n, isPlaced x.1 x.2 = true := by
  cases n with
  | binary span op l r =>
    have hPosition : ∀ n, isPlaced op.operandPosition n = true := by
      intro n
      unfold TokenKind.operandPosition
      split <;> rfl
    simp [parts, Node.operands, hPosition]
  | _ => simp_all [parts, Node.operands, isPlaced, Node.isExpression]

theorem ordinary_found (inFunction : Bool) (position : Position) (hn : n.isExpression = true)
    (hPlace : isPlaced position n = true) :
    ∀ x ∈ (found inFunction position n).all, isOrdinary [.list] x = true := by
  induction n using Node.inductionOnParts generalizing position with
  | step n ih =>
    rw [found_eq]
    refine ordinary_treated hn hPlace (ordinary_foundIn fun x hx => ?_)
    exact ih x.2 (mem_children_of_mem_parts hx) x.1 (isExpression_parts hn x hx)
      (isPlaced_parts hn x hx)

theorem ordinary_statementsFound
    (h : ∀ n ∈ ns, ∀ x ∈ statementFound inFunction n, isOrdinary [.list] x = true) :
    ∀ x ∈ statementsFound inFunction ns, isOrdinary [.list] x = true := by
  induction ns with
  | nil => exact List.forall_mem_nil _
  | cons n rest ih =>
    rw [statementsFound]
    exact List.forall_mem_append.mpr
      ⟨h n List.mem_cons_self, ih fun m hm => h m (List.mem_cons_of_mem n hm)⟩

theorem ordinary_statementFound (hn : n.isStatement = true) :
    ∀ x ∈ statementFound inFunction n, isOrdinary [.list] x = true := by
  induction n using Node.induction with
  | comment | globals | empty => exact List.forall_mem_nil _
  | call span callee args =>
    simp only [Node.isStatement, Node.isExpression, Bool.and_eq_true] at hn
    have hArgs := Node.areExpressions_iff.mp hn.2
    rw [statementFound, ← foundIn_map]
    exact ordinary_foundIn (List.forall_mem_map.mpr fun a ha =>
      ordinary_found inFunction .text (hArgs a ha) rfl)
  | block span stmts synthetic ih =>
    simp only [Node.isStatement, Bool.and_eq_true] at hn
    have hStmts := Node.areStatements_iff.mp hn.2
    rw [statementFound]
    exact ordinary_statementsFound fun m hm => ih m hm (hStmts m hm)
  | assign span lhs rhs =>
    simp only [Node.isStatement, Bool.and_eq_true] at hn
    have hPlace := ordinary_found inFunction .place hn.1.2 hn.1.1
    rw [statementFound]
    split
    · obtain ⟨hPlaceBefore, hPlaceHere⟩ := List.forall_mem_append.mp hPlace
      obtain ⟨hCondBefore, hCondHere⟩ := List.forall_mem_append.mp
        (ordinary_found inFunction .condition hn.2 rfl)
      refine List.forall_mem_append.mpr ⟨?_, ?_⟩
      · exact List.forall_mem_append.mpr ⟨hPlaceBefore, hCondBefore⟩
      · simp only [List.forall_mem_append]
        exact ⟨⟨hCondHere, hPlaceHere⟩, hPlaceHere⟩
    · exact ordinary_append hPlace (ordinary_found inFunction .value hn.2 rfl)
  | branch span cond thenBody elseBody ihCond ihThen ihElse =>
    simp only [Node.isStatement, Bool.and_eq_true, Bool.or_eq_true] at hn
    have hElse : ∀ x ∈ statementFound inFunction elseBody, isOrdinary [.list] x = true := by
      rcases hn.2 with hAbsent | hElse
      · cases elseBody with
        | absent => exact List.forall_mem_nil _
        | _ => cases hAbsent
      · exact ihElse hElse
    rw [statementFound]
    simp only [List.forall_mem_append]
    exact ⟨⟨ordinary_found inFunction .condition hn.1.1 rfl, ihThen hn.1.2⟩, hElse⟩
  | loop span cond body ihCond ihBody =>
    simp only [Node.isStatement, Bool.and_eq_true] at hn
    have hCond := ordinary_found inFunction .condition hn.1 rfl
    rw [statementFound]
    simp only [List.forall_mem_append]
    exact ⟨⟨hCond, ihBody hn.2⟩, (List.forall_mem_append.mp hCond).1⟩
  | ret span e =>
    rw [statementFound]
    split
    · exact List.forall_mem_nil _
    · next hPresent =>
      have he : e.isExpression = true := by simpa [Node.isStatement, hPresent] using hn
      have hValue := ordinary_found inFunction .value he rfl
      split
      · exact hValue
      · refine List.forall_mem_append.mpr ⟨(List.forall_mem_append.mp hValue).1, ?_⟩
        exact List.forall_mem_singleton.mpr rfl
  | _ => cases hn

/-! ### Programs that are not flattened -/

theorem ordinary_valuesFaults (h : ∀ n ∈ ns, ∀ x ∈ valueFaults n, isOrdinary texts x = true) :
    ∀ x ∈ valuesFaults ns, isOrdinary texts x = true := by
  induction ns with
  | nil => exact List.forall_mem_nil _
  | cons n rest ih =>
    rw [valuesFaults]
    exact List.forall_mem_append.mpr
      ⟨h n List.mem_cons_self, ih fun m hm => h m (List.mem_cons_of_mem n hm)⟩

theorem ordinary_compareFaults {op : TokenKind} {l r : Node} (hOp : (cmpOp? op).isSome = true)
    (hl : ∀ x ∈ textFaults l, isOrdinary texts x = true)
    (hr : ∀ x ∈ textFaults r, isOrdinary texts x = true) :
    ∀ x ∈ compareFaults op l r, isOrdinary texts x = true := by
  rw [compareFaults, if_pos hOp]
  exact List.forall_mem_append.mpr ⟨hl, hr⟩

theorem ordinary_faultsAt (hn : n.isExpression = true) (position : Position)
    (hPlace : isPlaced position n = true) :
    ∀ x ∈ faultsAt position n, isOrdinary unflattenedTexts x = true := by
  induction n using Node.induction generalizing position with
  | bool span v =>
    cases position with
    | place => cases hPlace
    | index => exact List.forall_mem_singleton.mpr rfl
    | _ => exact List.forall_mem_nil _
  | number span v =>
    cases position with
    | place => cases hPlace
    | _ => exact List.forall_mem_nil _
  | float span v | call span callee args =>
    cases position with
    | place => cases hPlace
    | _ => exact List.forall_mem_singleton.mpr rfl
  | string span v =>
    cases position with
    | place => cases hPlace
    | text | value => exact List.forall_mem_nil _
    | _ => exact List.forall_mem_singleton.mpr rfl
  | ident span name =>
    rw [faultsAt_ident]
    exact List.forall_mem_nil _
  | list span elems ih =>
    have hElems := Node.areExpressions_iff.mp hn
    cases position with
    | place => cases hPlace
    | value => exact ordinary_valuesFaults fun e he => ih e he (hElems e he) .value rfl
    | _ => exact List.forall_mem_singleton.mpr rfl
  | subscript span array index ihArray ihIndex =>
    simp only [Node.isExpression, Bool.and_eq_true] at hn
    rw [faultsAt_subscript]
    exact List.forall_mem_append.mpr
      ⟨ihArray hn.1.2 .place hn.1.1, ihIndex hn.2 .index rfl⟩
  | unary span op e ih =>
    simp only [Node.isExpression, Bool.and_eq_true] at hn
    have hArith : ∀ x ∈ arithFaults (.unary span op e), isOrdinary unflattenedTexts x = true := by
      rw [arithFaults, unaryFaults_of_isPrefixOp hn.1.1, List.append_nil]
      exact ih hn.2 .arithmetic rfl
    cases position with
    | place => cases hPlace
    | arithmetic | value => exact hArith
    | _ => exact List.forall_mem_singleton.mpr rfl
  | binary span op l r ihl ihr =>
    simp only [Node.isExpression, Bool.and_eq_true] at hn
    have hArith : ∀ x ∈ arithFaults (.binary span op l r), isOrdinary unflattenedTexts x = true := by
      rw [arithFaults]
      split
      · exact List.forall_mem_append.mpr
          ⟨ihl hn.1.2 .arithmetic rfl, ihr hn.2 .arithmetic rfl⟩
      · exact List.forall_mem_singleton.mpr rfl
    cases position with
    | place => cases hPlace
    | arithmetic | value => exact hArith
    | text | index => exact List.forall_mem_singleton.mpr rfl
    | condition =>
      rw [faultsAt, conditionFaults]
      split
      · next hOp =>
        exact ordinary_compareFaults (cmpOp?_isSome_of_isRelational hOp) (ihl hn.1.2 .text rfl)
          (ihr hn.2 .text rfl)
      · exact List.forall_mem_singleton.mpr rfl
  | concat span l r ihl ihr =>
    simp only [Node.isExpression, Bool.and_eq_true] at hn
    have hText : ∀ x ∈ textFaults (.concat span l r), isOrdinary unflattenedTexts x = true :=
      List.forall_mem_append.mpr ⟨ihl hn.1.2 .text rfl, ihr hn.2 .text rfl⟩
    cases position with
    | place => cases hPlace
    | text | value => exact hText
    | _ => exact List.forall_mem_singleton.mpr rfl
  | strCompare span op l r ihl ihr =>
    simp only [Node.isExpression, Bool.and_eq_true] at hn
    cases position with
    | place => cases hPlace
    | condition =>
      exact ordinary_compareFaults (cmpOp?_isSome_of_isEquality hn.1.1.1) (ihl hn.1.2 .text rfl)
        (ihr hn.2 .text rfl)
    | _ => exact List.forall_mem_singleton.mpr rfl
  | _ => cases hn

theorem ordinary_textsFaults {args : List Node} (h : ∀ a ∈ args, a.isExpression = true) :
    ∀ x ∈ textsFaults args, isOrdinary unflattenedTexts x = true := by
  intro x hx
  obtain ⟨a, ha, hx⟩ := List.mem_flatMap.mp hx
  exact ordinary_faultsAt (h a ha) .text rfl x hx

theorem ordinary_statementsFaults
    (h : ∀ n ∈ ns, n.isAbsent = false ∧ ∀ x ∈ statementFaults inFunction n,
      isOrdinary unflattenedTexts x = true) :
    ∀ x ∈ statementsFaults inFunction ns, isOrdinary unflattenedTexts x = true := by
  induction ns with
  | nil => exact List.forall_mem_nil _
  | cons n rest ih =>
    obtain ⟨hPresent, hFirst⟩ := h n List.mem_cons_self
    rw [statementsFaults, hPresent]
    exact List.forall_mem_append.mpr ⟨hFirst, ih fun m hm => h m (List.mem_cons_of_mem n hm)⟩

theorem ordinary_statementFaults (hn : n.isStatement = true) :
    ∀ x ∈ statementFaults inFunction n, isOrdinary unflattenedTexts x = true := by
  induction n using Node.induction with
  | comment | globals | empty => exact List.forall_mem_nil _
  | call span callee args =>
    simp only [Node.isStatement, Node.isExpression, Bool.and_eq_true] at hn
    cases callee with
    | ident => exact ordinary_textsFaults (Node.areExpressions_iff.mp hn.2)
    | _ => cases hn.1
  | block span stmts synthetic ih =>
    simp only [Node.isStatement, Bool.and_eq_true] at hn
    have hStmts := Node.areStatements_iff.mp hn.2
    rw [statementFaults]
    exact ordinary_statementsFaults fun m hm =>
      ⟨isAbsent_of_isStatement (hStmts m hm), ih m hm (hStmts m hm)⟩
  | assign span lhs rhs =>
    simp only [Node.isStatement, Bool.and_eq_true] at hn
    exact List.forall_mem_append.mpr ⟨ordinary_faultsAt hn.1.2 .place hn.1.1,
      ordinary_faultsAt hn.2 .value rfl⟩
  | branch span cond thenBody elseBody ihCond ihThen ihElse =>
    simp only [Node.isStatement, Bool.and_eq_true, Bool.or_eq_true] at hn
    have hElse : ∀ x ∈ statementFaults inFunction elseBody, isOrdinary unflattenedTexts x = true := by
      rcases hn.2 with hAbsent | hElse
      · cases elseBody with
        | absent => exact List.forall_mem_nil _
        | _ => cases hAbsent
      · exact ihElse hElse
    rw [statementFaults]
    simp only [List.forall_mem_append]
    exact ⟨⟨ordinary_faultsAt hn.1.1 .condition rfl, ihThen hn.1.2⟩, hElse⟩
  | loop span cond body ihCond ihBody =>
    simp only [Node.isStatement, Bool.and_eq_true] at hn
    rw [statementFaults]
    exact List.forall_mem_append.mpr ⟨ordinary_faultsAt hn.1 .condition rfl, ihBody hn.2⟩
  | ret span e =>
    rw [statementFaults]
    split
    · exact List.forall_mem_nil _
    · next hPresent =>
      have he : e.isExpression = true := by simpa [Node.isStatement, hPresent] using hn
      split
      · exact ordinary_faultsAt he .value rfl
      · exact List.forall_mem_singleton.mpr rfl
  | _ => cases hn

theorem forall_itemFaults {statements : List Node → List Objection} {body : Node → List Objection}
    {P : Objection → Prop} (hRoot : root.isProgram = true)
    (hStatements : ∀ ns, (∀ n ∈ ns, n.isStatement = true) → ∀ x ∈ statements ns, P x)
    (hBody : ∀ span name params b, b.isStatement = true → ∀ x ∈ body (.func span name params b), P x) :
    ∀ x ∈ statements ((ScopeTable.itemsOf root).filter fun n => !n.isFunc) ++
      ((ScopeTable.itemsOf root).filter Node.isFunc).flatMap body, P x := by
  have hItems := isItem_of_isProgram hRoot
  refine List.forall_mem_append.mpr ⟨hStatements _ fun n hn => ?_, fun x hx => ?_⟩
  · obtain ⟨hMem, hFunc⟩ := List.mem_filter.mp hn
    exact isStatement_of_isItem (by simpa using hFunc) (hItems n hMem)
  · obtain ⟨n, hn, hx⟩ := List.mem_flatMap.mp hx
    obtain ⟨hMem, hFunc⟩ := List.mem_filter.mp hn
    have hItem := hItems n hMem
    cases n with
    | func span name params body =>
      simp only [Node.isItem, Bool.and_eq_true] at hItem
      exact hBody span name params body hItem.2 x hx
    | _ => cases hFunc

/-! ### Errors -/

theorem exists_of_isOrdinary {p : Problem} (h : isOrdinary texts (.problem p) = true)
    (hKind : p.kind = .internal) : ∃ shape ∈ texts, p = .notAText shape := by
  cases p with
  | notAText shape => exact ⟨shape, List.contains_iff_mem.mp h, rfl⟩
  | _ => cases hKind <;> cases h

theorem exists_of_fault?_eq {α : Type} {x : Except Failure α} {p : Problem}
    (h : fault? x = some (.problem p)) : ∃ e, x = .error (.rejected e) ∧ e.problem = p := by
  rcases x with (e | why) | a
  · cases h
    exact ⟨e, rfl, rfl⟩
  · cases h
  · cases h

theorem ordinary_faultsOf (s : Settings) (hRoot : root.isProgram = true) :
    ∀ x ∈ faultsOf s root, isOrdinary (unexpectedTexts s) x = true := by
  unfold faultsOf unexpectedTexts
  split
  · exact forall_itemFaults hRoot
      (fun ns h => ordinary_statementsFound fun n hn => ordinary_statementFound (h n hn))
      fun _ _ _ _ => ordinary_statementFound
  · exact forall_itemFaults hRoot
      (fun ns h => ordinary_statementsFaults fun n hn =>
        ⟨isAbsent_of_isStatement (h n hn), ordinary_statementFaults (h n hn)⟩)
      fun _ _ _ _ => ordinary_statementFaults

theorem exists_flatten?_eq (s : Settings) {table : ScopeTable} (hRoot : root.isProgram = true)
    (hDeclared : ∀ n ∈ ScopeTable.itemsOf root, IsDeclared table n) :
    ∃ flat flatTable, Stage.flatten? s table root = .ok (flat, flatTable) ∧
      Reports (lower s flatTable flat).1 (faultsOf s root) := by
  unfold Stage.flatten? faultsOf
  split
  · exact exists_flatten_eq hRoot hDeclared
  · have hItems := isItem_of_isProgram hRoot
    refine ⟨root, table, rfl, ?_⟩
    cases root with
    | block span items synthetic =>
      refine fault?_lower (fun n hn => ?_) hDeclared
      have hItem := hItems n hn
      cases n with
      | absent => cases hItem
      | _ => rfl
    | _ => cases hRoot

/-- A program that parses makes lowering fail with an internal error exactly if its first fault is a
form that is not expected where a text stands, and never makes it crash. -/
theorem lower_eq_internal_iff (s : Settings) {settings : Settings} {file : Int} {source : List Char}
    {parsed : Syntax.Parsed} {root : Node} {table : ScopeTable}
    (hParse : Syntax.parse? settings (Scanner.start settings file source).tokens.1 = some parsed)
    (hRoot : parsed.result = .ok root) (hBuild : ScopeTable.build root = .ok table) :
    ∃ flat flatTable, Stage.flatten? s table root = .ok (flat, flatTable) ∧
      (∀ why, (lower s flatTable flat).1 ≠ .error (.crash why)) ∧
      ((∃ e, (lower s flatTable flat).1 = .error (.rejected e) ∧ e.problem.kind = .internal) ↔
        ∃ shape ∈ unexpectedTexts s, (faultsOf s root).head? = some (.problem (.notAText shape))) := by
  have hFormed := Syntax.formed_of_parse (N := (· ≠ "")) (fun t => value_ne_of_mem_tokens) hParse hRoot
  obtain ⟨flat, flatTable, hFlatten, hReports⟩ :=
    exists_flatten?_eq s hFormed.shape (isDeclared_of_build hFormed hBuild)
  have hOrdinary : ∀ x, (faultsOf s root).head? = some x → isOrdinary (unexpectedTexts s) x = true :=
    fun x hx => ordinary_faultsOf s hFormed.shape x (List.mem_of_head? hx)
  unfold Reports at hReports
  rw [← hReports] at hOrdinary
  rw [← hReports]
  refine ⟨flat, flatTable, hFlatten, ?_, ?_⟩
  · intro why hCrash
    rw [hCrash] at hOrdinary
    cases hOrdinary _ rfl
  · constructor
    · rintro ⟨e, hError, hKind⟩
      rw [hError] at hOrdinary ⊢
      obtain ⟨shape, hShape, hProblem⟩ := exists_of_isOrdinary (hOrdinary _ rfl) hKind
      exact ⟨shape, hShape, congrArg (fun p => some (Objection.problem p)) hProblem⟩
    · rintro ⟨shape, hShape, hFault⟩
      obtain ⟨e, hError, hProblem⟩ := exists_of_fault?_eq hFault
      refine ⟨e, hError, ?_⟩
      rw [hProblem]
      rfl

def listedSource : List Char :=
  "echo(1 + 2, [1]);".toList

/-- The list is a fault in any case, the sum if nothing is flattened. -/
theorem lower_eq_internal_iff_listedSource :
    ∃ parsed root table, Syntax.parse? {} (Scanner.start {} 0 listedSource).tokens.1 = some parsed ∧
      parsed.result = .ok root ∧ ScopeTable.build root = .ok table ∧
      ∀ s : Settings, ∃ flat flatTable, Stage.flatten? s table root = .ok (flat, flatTable) ∧
        ∃ e, (lower s flatTable flat).1 = .error (.rejected e) ∧ e.problem.kind = .internal := by
  have hEval : (scoped? {} 0 listedSource).map (fun x => (sourceFaults x.2.1, programFaults x.2.1)) =
      some ([.problem (.notAText .list)],
        [.problem (.notAText .binary), .problem (.notAText .list)]) := by decide +kernel
  obtain ⟨⟨parsed, root, table⟩, hScoped, hFaults⟩ := Option.map_eq_some_iff.mp hEval
  obtain ⟨hSource, hProgram⟩ := Prod.mk.inj hFaults
  obtain ⟨hParse, hRoot, hBuild⟩ := of_scoped? hScoped
  refine ⟨parsed, root, table, hParse, hRoot, hBuild, fun s => ?_⟩
  obtain ⟨flat, flatTable, hFlatten, _, hIff⟩ := lower_eq_internal_iff s hParse hRoot hBuild
  refine ⟨flat, flatTable, hFlatten, hIff.mpr ?_⟩
  unfold unexpectedTexts faultsOf
  split
  · exact ⟨.list, by decide, by rw [hSource]; rfl⟩
  · exact ⟨.binary, by decide, by rw [hProgram]; rfl⟩

def listSource : List Char :=
  "echo([1]);".toList

/-- A list that is passed to a command is called an internal error. -/
theorem lower_listSource_internal :
    (Scanner.start {} 0 listSource).tokens.2.error = none ∧
    ∃ parsed root table flat flatTable e,
      Syntax.parse? {} (Scanner.start {} 0 listSource).tokens.1 = some parsed ∧
      parsed.result = .ok root ∧ ScopeTable.build root = .ok table ∧
      Stage.flatten? {} table root = .ok (flat, flatTable) ∧
      (lower {} flatTable flat).1 = .error (.rejected e) ∧ e.problem = .notAText .list ∧
      e.problem.kind = .internal := by
  have hEval : (scoped? {} 0 listSource).map (fun x => (Stage.flatten? {} x.2.2 x.2.1).toOption.map
      fun y => fault? (lower {} y.2 y.1).1) = some (some (some (.problem (.notAText .list)))) := by
    decide +kernel
  obtain ⟨⟨parsed, root, table⟩, hScoped, hFlat⟩ := Option.map_eq_some_iff.mp hEval
  obtain ⟨⟨flat, flatTable⟩, hFlatten, hFault⟩ := Option.map_eq_some_iff.mp hFlat
  obtain ⟨hParse, hRoot, hBuild⟩ := of_scoped? hScoped
  obtain ⟨e, hError, hProblem⟩ := exists_of_fault?_eq hFault
  refine ⟨by decide +kernel, parsed, root, table, flat, flatTable, e, hParse, hRoot, hBuild,
    eq_ok_of_toOption hFlatten, hError, hProblem, ?_⟩
  rw [hProblem]
  rfl

end BatchCompiler.Lowering
