import BatchCompiler.Proofs.Flattening.Clearing
import BatchCompiler.Proofs.Lowering.Words

/-!
# What is accepted

A program that parses is accepted, flat, exactly if its expressions fit their positions and only its
functions return values. Whatever is rejected is told why it cannot be represented, except for the
forms that nobody expects where a text should stand.
-/

namespace BatchCompiler

open Syntax.Flattening

namespace Syntax.Flattening

variable {inFunction : Bool} {position : Position} {n body root : Node} {span : Span}

theorem all_append_eq_nil_iff {a b : Found} : (a ++ b).all = [] ↔ a.all = [] ∧ b.all = [] := by
  change (a.before ++ b.before) ++ (a.here ++ b.here) = [] ↔
    a.before ++ a.here = [] ∧ b.before ++ b.here = []
  simp only [List.append_eq_nil_iff]
  constructor
  · rintro ⟨⟨ha, hb⟩, ha', hb'⟩
    exact ⟨⟨ha, ha'⟩, hb, hb'⟩
  · rintro ⟨⟨ha, ha'⟩, hb, hb'⟩
    exact ⟨⟨ha, hb⟩, ha', hb'⟩

theorem all_treated_eq_nil_iff {x : Found} :
    (treated inFunction position n x).all = [] ↔
      n.isAdmitted inFunction position = true ∧ x.all = [] := by
  unfold treated
  split
  · next hAdmitted =>
    rw [eq_true hAdmitted, true_and]
    split
    · change x.all ++ [] = [] ↔ x.all = []
      rw [List.append_nil]
    · exact Iff.rfl
  · next hAdmitted =>
    split
    · simp [hAdmitted, Found.all]
    · simp [hAdmitted, Found.all]

theorem all_foundIn_eq_nil_iff {xs : List (Position × Node)} :
    (foundIn inFunction xs).all = [] ↔ ∀ x ∈ xs, (found inFunction x.1 x.2).all = [] := by
  induction xs with
  | nil => simp [foundIn, Found.all]
  | cons x rest ih => rw [foundIn, all_append_eq_nil_iff, ih, List.forall_mem_cons]

theorem parts_of_isAdmitted (h : n.isAdmitted inFunction position = true) : parts n = n.operands := by
  cases n with
  | call => cases position <;> cases h
  | _ => rfl

theorem all_found_eq_nil_iff :
    (found inFunction position n).all = [] ↔ n.Fits inFunction position := by
  induction n using Node.inductionOnParts generalizing position with
  | step n ih =>
    rw [found_eq, all_treated_eq_nil_iff, all_foundIn_eq_nil_iff, Node.fits_iff]
    refine and_congr_right fun hAdmitted => ?_
    rw [← parts_of_isAdmitted hAdmitted]
    exact forall₂_congr fun x hx => ih x.2 (mem_children_of_mem_parts hx)

theorem fits_condition_iff (h : n.isComparison = true) :
    n.Fits inFunction .condition ↔ n.Fits inFunction .value := by
  rw [Node.fits_iff, Node.fits_iff]
  cases n with
  | binary | strCompare => exact Iff.rfl
  | _ => cases h

structure Suits (inFunction : Bool) (n : Node) : Prop where
  fits : ∀ x ∈ n.expressions, Node.Fits inFunction x.1 x.2
  returns : inFunction = false → n.returnsValue = false

theorem statementsFound_eq_nil_iff {ns : List Node} :
    statementsFound inFunction ns = [] ↔ ∀ n ∈ ns, statementFound inFunction n = [] := by
  induction ns with
  | nil => simp [statementsFound]
  | cons n rest ih => rw [statementsFound, List.append_eq_nil_iff, ih, List.forall_mem_cons]

theorem suits_iff :
    Suits inFunction n ↔
    (∀ x ∈ n.expressions, Node.Fits inFunction x.1 x.2) ∧
      (inFunction = false → n.returnsValue = false) := by
  constructor
  · rintro ⟨hFits, hReturns⟩
    exact ⟨hFits, hReturns⟩
  · rintro ⟨hFits, hReturns⟩
    exact ⟨hFits, hReturns⟩

theorem suits_block_iff {stmts : List Node} {synthetic : Bool} :
    Suits inFunction (.block span stmts synthetic) ↔ ∀ n ∈ stmts, Suits inFunction n := by
  simp only [suits_iff, Node.expressions, Node.returnsValue, Node.mem_expressionsOf,
    Node.returnsValueIn_eq_false_iff]
  constructor
  · rintro ⟨hFits, hReturns⟩ n hn
    exact ⟨fun x hx => hFits x ⟨n, hn, hx⟩, fun hTop => hReturns hTop n hn⟩
  · intro h
    constructor
    · rintro x ⟨n, hn, hx⟩
      exact (h n hn).1 x hx
    · exact fun hTop n hn => (h n hn).2 hTop

theorem suits_branch_iff {cond thenBody elseBody : Node} :
    Suits inFunction (.branch span cond thenBody elseBody) ↔
      cond.Fits inFunction .condition ∧ Suits inFunction thenBody ∧ Suits inFunction elseBody := by
  simp only [suits_iff, Node.expressions, Node.returnsValue, List.forall_mem_cons,
    List.forall_mem_append, Bool.or_eq_false_iff]
  grind

theorem suits_loop_iff {cond : Node} :
    Suits inFunction (.loop span cond body) ↔
      cond.Fits inFunction .condition ∧ Suits inFunction body := by
  simp only [suits_iff, Node.expressions, Node.returnsValue, List.forall_mem_cons]
  exact and_assoc

theorem statementFound_assign_eq_nil_iff {lhs rhs : Node} :
    statementFound inFunction (.assign span lhs rhs) = [] ↔
      lhs.Fits inFunction .place ∧ rhs.Fits inFunction .value := by
  rw [statementFound]
  split
  · next hComparison =>
    rw [← all_found_eq_nil_iff, ← fits_condition_iff hComparison, ← all_found_eq_nil_iff,
      ← all_append_eq_nil_iff]
    change (_ ++ _) ++ _ = [] ↔ (_ ++ _) ++ (_ ++ _) = []
    simp only [List.append_eq_nil_iff]
    grind
  · rw [all_append_eq_nil_iff, all_found_eq_nil_iff, all_found_eq_nil_iff]

theorem statementFound_eq_nil_iff (hn : n.isStatement = true) :
    statementFound inFunction n = [] ↔ Suits inFunction n := by
  induction n using Node.induction with
  | comment | globals | empty =>
    rw [suits_iff]
    simp [statementFound, Node.expressions, Node.returnsValue]
  | call span callee args =>
    rw [suits_iff, statementFound, ← foundIn_map, all_foundIn_eq_nil_iff]
    simp [Node.expressions, Node.returnsValue, all_found_eq_nil_iff]
  | block span stmts synthetic ih =>
    simp only [Node.isStatement, Bool.and_eq_true] at hn
    have hStmts := Node.areStatements_iff.mp hn.2
    rw [statementFound, statementsFound_eq_nil_iff, suits_block_iff]
    exact forall₂_congr fun m hm => ih m hm (hStmts m hm)
  | assign span lhs rhs =>
    rw [statementFound_assign_eq_nil_iff, suits_iff]
    simp [Node.expressions, Node.returnsValue]
  | branch span cond thenBody elseBody ihCond ihThen ihElse =>
    simp only [Node.isStatement, Bool.and_eq_true, Bool.or_eq_true] at hn
    have hElse : statementFound inFunction elseBody = [] ↔ Suits inFunction elseBody := by
      rcases hn.2 with hAbsent | hElse
      · cases elseBody with
        | absent =>
          rw [suits_iff]
          simp [statementFound, Node.expressions, Node.returnsValue]
        | _ => cases hAbsent
      · exact ihElse hElse
    rw [statementFound, List.append_eq_nil_iff, List.append_eq_nil_iff, all_found_eq_nil_iff,
      ihThen hn.1.2, hElse, suits_branch_iff, and_assoc]
  | loop span cond body ihCond ihBody =>
    simp only [Node.isStatement, Bool.and_eq_true] at hn
    rw [statementFound, suits_loop_iff, ← ihBody hn.2, ← all_found_eq_nil_iff]
    simp only [List.append_eq_nil_iff, Found.all]
    grind
  | ret span e =>
    rw [suits_iff, statementFound, Node.expressions, Node.returnsValue]
    cases hAbsent : e.isAbsent with
    | true => simp
    | false =>
      cases inFunction with
      | true => simp [all_found_eq_nil_iff]
      | false => simp
  | _ => cases hn

theorem isItem_of_isProgram (hRoot : root.isProgram = true) :
    ∀ n ∈ ScopeTable.itemsOf root, n.isItem = true := by
  cases root with
  | block span items synthetic =>
    simp only [Node.isProgram, Bool.and_eq_true, List.all_eq_true] at hRoot
    exact hRoot.2
  | _ => cases hRoot

theorem bodyFound_eq_nil_iff (hItem : n.isItem = true) (hn : n.isFunc = true) :
    bodyFound n = [] ↔ ∀ x ∈ n.expressions, Node.Fits true x.1 x.2 := by
  cases n with
  | func span name params body =>
    simp only [Node.isItem, Bool.and_eq_true] at hItem
    rw [bodyFound, statementFound_eq_nil_iff hItem.2, suits_iff, Node.expressions]
    simp
  | _ => cases hn

theorem sourceFaults_eq_nil_iff (hRoot : root.isProgram = true) :
    sourceFaults root = [] ↔ root.IsAccepted := by
  have hItems := isItem_of_isProgram hRoot
  have hTop : ∀ n ∈ ScopeTable.itemsOf root, n.isFunc = false →
      (statementFound false n = [] ↔ Suits false n) :=
    fun n hn hFunc => statementFound_eq_nil_iff (isStatement_of_isItem hFunc (hItems n hn))
  rw [sourceFaults, List.append_eq_nil_iff, statementsFound_eq_nil_iff, List.flatMap_eq_nil_iff]
  simp only [List.mem_filter, Bool.not_eq_true', and_imp]
  constructor
  · rintro ⟨hStatements, hBodies⟩
    constructor
    · exact fun n hn hFunc => ((hTop n hn hFunc).mp (hStatements n hn hFunc)).returns rfl
    · intro n hn
      cases hFunc : n.isFunc with
      | true => exact (bodyFound_eq_nil_iff (hItems n hn) hFunc).mp (hBodies n hn hFunc)
      | false => exact ((hTop n hn hFunc).mp (hStatements n hn hFunc)).fits
  · rintro ⟨hReturns, hFits⟩
    constructor
    · intro n hn hFunc
      have hFitsTop := hFits n hn
      rw [hFunc] at hFitsTop
      exact (hTop n hn hFunc).mpr ⟨hFitsTop, fun _ => hReturns n hn hFunc⟩
    · intro n hn hFunc
      have hFitsBody := hFits n hn
      rw [hFunc] at hFitsBody
      exact (bodyFound_eq_nil_iff (hItems n hn) hFunc).mpr hFitsBody

end Syntax.Flattening

namespace Lowering

theorem mem_declaredFunctions {span : Span} {name : String} {params : List Node}
    {items : List Node} (h : .func span name params body ∈ items) :
    name ∈ ScopeTable.declaredFunctions items := by
  induction items with
  | nil => cases h
  | cons n rest ih =>
    rcases List.mem_cons.mp h with rfl | hRest
    · exact List.mem_cons_self
    · cases n with
      | func => exact List.mem_cons_of_mem _ (ih hRest)
      | _ => exact ih hRest

theorem isDeclared_of_build {table : ScopeTable}
    (hRoot : Syntax.Formed Node.isProgram (· ≠ "") root)
    (hBuild : ScopeTable.build root = .ok table) :
    ∀ n ∈ ScopeTable.itemsOf root, IsDeclared table n := by
  intro n hn
  cases n with
  | func span name params body =>
    have hItem := isItem_of_isProgram hRoot.shape _ hn
    have hLeaves := everyLeaf_itemsOf hRoot.leaves _ hn
    simp only [Node.isItem, Bool.and_eq_true, List.all_eq_true] at hItem
    refine ⟨(Node.everyLeaf_func_iff.mp hLeaves).1, ?_, fun p hp => ?_⟩
    · rw [ScopeTable.build_functionNames hBuild]
      exact mem_declaredFunctions hn
    · have hFree := hItem.1.2 p hp
      cases p with
      | ident span x => exact ⟨span, x, rfl⟩
      | _ => cases hFree
  | _ => trivial

/-- A program that parses and declares no function twice is flattened, and what comes of it is
accepted exactly if every expression fits its position and only functions return values. -/
theorem lower_flatten_eq_ok_iff (lowering : Settings) {settings : Settings} {tokens : List Token}
    {parsed : Syntax.Parsed} {root : Node} {table : ScopeTable}
    (hNames : ∀ t ∈ tokens, t.kind = .ident → t.value ≠ "")
    (hParse : Syntax.parse? settings tokens = some parsed) (hRoot : parsed.result = .ok root)
    (hBuild : ScopeTable.build root = .ok table) :
    ∃ flat flatTable, Syntax.flatten table root = .ok (flat, flatTable) ∧
      ((∃ program, (lower lowering flatTable flat).1 = .ok program) ↔ root.IsAccepted) := by
  have hFormed := Syntax.formed_of_parse (N := (· ≠ "")) hNames hParse hRoot
  obtain ⟨flat, flatTable, hFlatten, hFault⟩ :=
    exists_flatten_eq hFormed.shape (isDeclared_of_build hFormed hBuild)
  have hReports : Reports (lower lowering flatTable flat).1 (sourceFaults root) := hFault
  exact ⟨flat, flatTable, hFlatten,
    hReports.isOk_iff.trans (sourceFaults_eq_nil_iff hFormed.shape)⟩

theorem value_ne_of_mem_tokens {s : Scanner} {t : Token} (h : t ∈ s.tokens.1)
    (hKind : t.kind = .ident) : t.value ≠ "" := by
  intro hEmpty
  have hName := (Scanner.isName_of_mem_tokens h hKind).ne_nil
  rw [hEmpty] at hName
  exact hName rfl

def scoped? (settings : Settings) (file : Int) (source : List Char) :
    Option (Syntax.Parsed × Node × ScopeTable) := do
  let parsed ← Syntax.parse? settings (Scanner.start settings file source).tokens.1
  let root ← parsed.result.toOption
  let table ← (ScopeTable.build root).toOption
  pure (parsed, root, table)

theorem eq_ok_of_toOption {ε α : Type} {x : Except ε α} {a : α} (h : x.toOption = some a) :
    x = .ok a := by
  cases x with
  | error e => cases h
  | ok b =>
    cases h
    rfl

theorem of_scoped? {settings : Settings} {file : Int} {source : List Char} {parsed : Syntax.Parsed}
    {table : ScopeTable} (h : scoped? settings file source = some (parsed, root, table)) :
    Syntax.parse? settings (Scanner.start settings file source).tokens.1 = some parsed ∧
      parsed.result = .ok root ∧ ScopeTable.build root = .ok table := by
  simp only [scoped?, Option.bind_eq_bind, Option.bind_eq_some_iff] at h
  obtain ⟨parsed', hParse, root', hRoot, table', hBuild, hEq⟩ := h
  cases hEq
  exact ⟨hParse, eq_ok_of_toOption hRoot, eq_ok_of_toOption hBuild⟩

def fittingSource : List Char :=
  ("func f(a) \x7b if (a[x] < 2 * a) return [a, a == 1]; \x7d x = -y; " ++
    "y[x + 1 == 2] = \"s\" + x * 2; echo(y[1][x], x < 2);").toList

theorem lower_flatten_eq_ok_iff_fittingSource :
    ∃ parsed root table flat flatTable program,
      Syntax.parse? {} (Scanner.start {} 0 fittingSource).tokens.1 = some parsed ∧
      parsed.result = .ok root ∧ ScopeTable.build root = .ok table ∧
      Syntax.flatten table root = .ok (flat, flatTable) ∧ (lower {} flatTable flat).1 = .ok program ∧
      root.IsAccepted := by
  have hEval : (scoped? {} 0 fittingSource).map (fun x => (Syntax.flatten x.2.2 x.2.1).toOption.map
      fun y => (lower {} y.2 y.1).1.toOption.isSome) = some (some true) := by decide +kernel
  obtain ⟨⟨parsed, root, table⟩, hScoped, hFlat⟩ := Option.map_eq_some_iff.mp hEval
  obtain ⟨⟨flat, flatTable⟩, hFlatten, hSome⟩ := Option.map_eq_some_iff.mp hFlat
  obtain ⟨program, hProgram⟩ := Option.isSome_iff_exists.mp hSome
  obtain ⟨hParse, hRoot, hBuild⟩ := of_scoped? hScoped
  obtain ⟨flat', flatTable', hFlatten', hIff⟩ :=
    lower_flatten_eq_ok_iff {} (fun t => value_ne_of_mem_tokens) hParse hRoot hBuild
  cases hFlatten'.symm.trans (eq_ok_of_toOption hFlatten)
  have hLower := eq_ok_of_toOption hProgram
  exact ⟨parsed, root, table, flat, flatTable, program, hParse, hRoot, hBuild, hFlatten', hLower,
    hIff.mp ⟨program, hLower⟩⟩

end Lowering

end BatchCompiler
