import BatchCompiler.Proofs.Syntax.Induction
import BatchCompiler.Proofs.Syntax.Parsing
import BatchCompiler.Proofs.Text.Spelling
import BatchCompiler.Source.Scanner

/-!
# The conventions of parsed trees

What the later stages take for granted at every node of a tree without looking: which parts are
names or places, where functions and expressions stand, which operations have a string operand, and
which parts can be missing.
-/

namespace BatchCompiler.Node

open Syntax

variable {n : Node}

def isSynthetic : Node → Bool
  | .block _ _ synthetic => synthetic
  | _ => false

def bodies : Node → List Node
  | .block _ stmts _ => stmts
  | .branch _ _ thenBody elseBody => [thenBody, elseBody]
  | .loop _ _ body | .func _ _ _ body => [body]
  | _ => []

def optionalParts : Node → List Node
  | .branch _ _ _ elseBody => [elseBody]
  | .ret _ e => [e]
  | _ => []

def neededParts : Node → List Node
  | .branch _ cond thenBody _ => [cond, thenBody]
  | .ret .. => []
  | n => n.children

def isValue : Node → Bool
  | .bool .. | .number .. | .float .. | .string .. | .list .. | .ident .. | .subscript ..
  | .unary .. | .binary .. | .concat .. | .strCompare .. | .call .. => true
  | _ => false

def IsReserved (name : String) : Prop :=
  ∃ rest : String, name = "__" ++ rest

/-- The conventions at every node of a tree; only the root and what stands directly below it are
treated apart. -/
structure Conventional (root : Node) : Prop where
  root_synthetic : root.isSynthetic = true
  others_written : ∀ n ∈ walkAll root.children, n.isSynthetic = false
  functions_on_top : ∀ n ∈ walkAll root.children, ∀ c ∈ n.children, c.isFunc = false
  assigned_place : ∀ span lhs rhs, .assign span lhs rhs ∈ root.walk → lhs.isPlace = true
  indexed_place : ∀ span array index, .subscript span array index ∈ root.walk →
    array.isPlace = true
  callee_name : ∀ span callee args, .call span callee args ∈ root.walk → callee.isIdent = true
  parameter_names : ∀ span name params body, .func span name params body ∈ root.walk →
    ∀ x ∈ params, x.isIdent = true
  global_names : ∀ span names, .globals span names ∈ root.walk → ∀ x ∈ names, x.isIdent = true
  values_used : ∀ n ∈ root.walk, ∀ s ∈ n.bodies, s.isValue = true → s.isCall = true
  concat_stringy : ∀ span l r, .concat span l r ∈ root.walk →
    l.isStringy = true ∨ r.isStringy = true
  strCompare_stringy : ∀ span op l r, .strCompare span op l r ∈ root.walk →
    l.isStringy = true ∨ r.isStringy = true
  binary_not_stringy : ∀ span op l r, .binary span op l r ∈ root.walk →
    op = .plus ∨ op = .eq ∨ op = .ne → l.isStringy = false ∧ r.isStringy = false
  signed_not_number : ∀ span e, .unary span .minus e ∈ root.walk → e.isNumber = false
  name_free : ∀ span name, .ident span name ∈ root.walk → ¬ IsReserved name
  function_free : ∀ span name params body, .func span name params body ∈ root.walk →
    ¬ IsReserved name
  parts_present : ∀ n ∈ root.walk, ∀ c ∈ n.neededParts, c.isAbsent = false

theorem walkAll_append (a b : List Node) : walkAll (a ++ b) = walkAll a ++ walkAll b := by
  induction a with
  | nil => rfl
  | cons n rest ih => rw [List.cons_append, walkAll, walkAll, ih, List.append_assoc]

theorem walk_eq (h : n.isAbsent = false) : n.walk = n :: walkAll n.children := by
  cases n with
  | absent => cases h
  | func => simp [walk, children, walkAll_append, walkAll]
  | _ => simp [walk, children, walkAll]

theorem forall_walk_of_inherited {P : Node → Prop}
    (hParts : ∀ n, P n → ∀ c ∈ n.children, c.isAbsent = true ∨ P c) (hn : P n) :
    ∀ x ∈ n.walk, P x := by
  induction n using inductionOnParts with
  | step n ih =>
    cases hAbsent : n.isAbsent with
    | true =>
      cases n with
      | absent => simp [walk]
      | _ => cases hAbsent
    | false =>
      rw [walk_eq hAbsent, List.forall_mem_cons, forall_walkAll_iff]
      constructor
      · exact hn
      · intro c hc
        rcases hParts n hn c hc with hMissing | hPart
        · cases c with
          | absent => simp [walk]
          | _ => cases hMissing
        · exact ih c hc hPart

theorem isIdent_of_isFreeName (h : n.isFreeName = true) : n.isIdent = true := by
  obtain ⟨span, name, rfl⟩ := exists_eq_ident h
  rfl

theorem isItem_of_isStatement (h : n.isStatement = true) : n.isItem = true := by
  cases n with
  | func => cases h
  | _ => exact h

def IsPart (n : Node) : Prop :=
  n.isExpression = true ∨ n.isItem = true

section

variable {span : Span} {name : String} {op : TokenKind} {array index e l r callee : Node}
  {lhs rhs cond thenBody elseBody body : Node} {elems args stmts names params : List Node}
  {synthetic : Bool}

theorem isPart_ident_iff : (ident span name).IsPart ↔ ¬ IsReserved name := by
  have hReserved : IsReserved name ↔ Text.startsWith Parser.reservedLead name = true :=
    Text.startsWith_iff.symm
  simp [IsPart, isExpression, isItem, isStatement, isFreeName, hReserved]

theorem isPart_list_iff : (list span elems).IsPart ↔ ∀ e ∈ elems, e.isExpression = true := by
  simp [IsPart, isExpression, isItem, isStatement, areExpressions_iff]

theorem isPart_subscript_iff : (subscript span array index).IsPart ↔
    array.isPlace = true ∧ array.isExpression = true ∧ index.isExpression = true := by
  simp [IsPart, isExpression, isItem, isStatement, and_assoc]

theorem isPart_unary_iff : (unary span op e).IsPart ↔
    Parser.isPrefixOp op = true ∧ (op ≠ .minus ∨ e.isNumber = false) ∧ e.isExpression = true := by
  simp [IsPart, isExpression, isItem, isStatement, and_assoc]

theorem isPart_binary_iff : (binary span op l r).IsPart ↔
    (Parser.precedence? op).isSome = true ∧
      (isOverloaded op = false ∨ l.isStringy = false ∧ r.isStringy = false) ∧
      l.isExpression = true ∧ r.isExpression = true := by
  simp [IsPart, isExpression, isItem, isStatement, and_assoc]

theorem isPart_concat_iff : (concat span l r).IsPart ↔
    (l.isStringy = true ∨ r.isStringy = true) ∧ l.isExpression = true ∧ r.isExpression = true := by
  simp [IsPart, isExpression, isItem, isStatement, and_assoc]

theorem isPart_strCompare_iff : (strCompare span op l r).IsPart ↔
    (op = .eq ∨ op = .ne) ∧ (l.isStringy = true ∨ r.isStringy = true) ∧
      l.isExpression = true ∧ r.isExpression = true := by
  simp [IsPart, isExpression, isItem, isStatement, and_assoc]

theorem isPart_call_iff : (call span callee args).IsPart ↔
    callee.isFreeName = true ∧ ∀ a ∈ args, a.isExpression = true := by
  simp [IsPart, isExpression, isItem, isStatement, areExpressions_iff]

theorem isPart_block_iff : (block span stmts synthetic).IsPart ↔
    synthetic = false ∧ ∀ s ∈ stmts, s.isStatement = true := by
  simp [IsPart, isExpression, isItem, isStatement, areStatements_iff]

theorem isPart_assign_iff : (assign span lhs rhs).IsPart ↔
    lhs.isPlace = true ∧ lhs.isExpression = true ∧ rhs.isExpression = true := by
  simp [IsPart, isExpression, isItem, isStatement, and_assoc]

theorem isPart_branch_iff : (branch span cond thenBody elseBody).IsPart ↔
    cond.isExpression = true ∧ thenBody.isStatement = true ∧
      (elseBody.isAbsent = true ∨ elseBody.isStatement = true) := by
  simp [IsPart, isExpression, isItem, isStatement, and_assoc]

theorem isPart_loop_iff : (loop span cond body).IsPart ↔
    cond.isExpression = true ∧ body.isStatement = true := by
  simp [IsPart, isExpression, isItem, isStatement]

theorem isPart_ret_iff : (ret span e).IsPart ↔ e.isAbsent = true ∨ e.isExpression = true := by
  simp [IsPart, isExpression, isItem, isStatement]

theorem isPart_globals_iff : (globals span names).IsPart ↔ ∀ x ∈ names, x.isFreeName = true := by
  simp [IsPart, isExpression, isItem, isStatement]

theorem isPart_func_iff : (func span name params body).IsPart ↔
    ¬ IsReserved name ∧ (∀ x ∈ params, x.isFreeName = true) ∧ body.isStatement = true := by
  have hReserved : IsReserved name ↔ Text.startsWith Parser.reservedLead name = true :=
    Text.startsWith_iff.symm
  simp [IsPart, isExpression, isItem, hReserved, and_assoc]

end

theorem IsPart.needed (h : n.IsPart) :
    ∀ c ∈ n.neededParts, c.isExpression = true ∨ c.isStatement = true := by
  cases n with
  | list => exact fun c hc => .inl (isPart_list_iff.mp h c hc)
  | call =>
    obtain ⟨hCallee, hArgs⟩ := isPart_call_iff.mp h
    simp only [neededParts, Node.children, List.forall_mem_cons]
    exact ⟨.inl (isExpression_of_isFreeName hCallee), fun c hc => .inl (hArgs c hc)⟩
  | block => exact fun c hc => .inr ((isPart_block_iff.mp h).2 c hc)
  | globals => exact fun c hc => .inl (isExpression_of_isFreeName (isPart_globals_iff.mp h c hc))
  | func =>
    obtain ⟨-, hParams, hBody⟩ := isPart_func_iff.mp h
    simp only [neededParts, children, List.forall_mem_append, List.forall_mem_singleton]
    exact ⟨fun c hc => .inl (isExpression_of_isFreeName (hParams c hc)), .inr hBody⟩
  | subscript => simp_all [isPart_subscript_iff, neededParts, children]
  | unary => simp_all [isPart_unary_iff, neededParts, children]
  | binary => simp_all [isPart_binary_iff, neededParts, children]
  | concat => simp_all [isPart_concat_iff, neededParts, children]
  | strCompare => simp_all [isPart_strCompare_iff, neededParts, children]
  | assign => simp_all [isPart_assign_iff, neededParts, children]
  | branch => simp_all [isPart_branch_iff, neededParts]
  | loop => simp_all [isPart_loop_iff, neededParts, children]
  | _ => simp [neededParts, children]

theorem IsPart.optional (h : n.IsPart) :
    ∀ c ∈ n.optionalParts, c.isAbsent = true ∨ c.isExpression = true ∨ c.isStatement = true := by
  cases n with
  | branch =>
    obtain ⟨-, -, hElse⟩ := isPart_branch_iff.mp h
    simp only [optionalParts, List.forall_mem_singleton]
    exact hElse.imp_right .inr
  | ret =>
    simp only [optionalParts, List.forall_mem_singleton]
    exact (isPart_ret_iff.mp h).imp_right .inl
  | _ => simp [optionalParts]

theorem mem_neededParts_or_optionalParts {c : Node} (h : c ∈ n.children) :
    c ∈ n.neededParts ∨ c ∈ n.optionalParts := by
  cases n with
  | branch | ret => simpa [children, neededParts, optionalParts, or_assoc] using h
  | _ => exact .inl h

theorem IsPart.children (h : n.IsPart) :
    ∀ c ∈ n.children, c.isAbsent = true ∨ c.isExpression = true ∨ c.isStatement = true := by
  intro c hc
  rcases mem_neededParts_or_optionalParts hc with hc | hc
  · exact .inr (h.needed c hc)
  · exact h.optional c hc

theorem isPart_of_mem_walk (h : n.isItem = true) : ∀ x ∈ n.walk, x.IsPart := by
  apply forall_walk_of_inherited (P := IsPart) _ (.inr h)
  intro n hn c hc
  rcases hn.children c hc with hMissing | hExpression | hStatement
  · exact .inl hMissing
  · exact .inr (.inl hExpression)
  · exact .inr (.inr (isItem_of_isStatement hStatement))

theorem IsPart.bodies (h : n.IsPart) : ∀ s ∈ n.bodies, s.isAbsent = true ∨ s.isItem = true := by
  cases n with
  | block => exact fun s hs => .inr (isItem_of_isStatement ((isPart_block_iff.mp h).2 s hs))
  | branch =>
    obtain ⟨-, hThen, hElse⟩ := isPart_branch_iff.mp h
    simp only [Node.bodies, List.forall_mem_cons]
    exact ⟨.inr (isItem_of_isStatement hThen), hElse.imp_right isItem_of_isStatement,
      List.forall_mem_nil _⟩
  | loop =>
    exact List.forall_mem_singleton.mpr (.inr (isItem_of_isStatement (isPart_loop_iff.mp h).2))
  | func =>
    obtain ⟨-, -, hBody⟩ := isPart_func_iff.mp h
    exact List.forall_mem_singleton.mpr (.inr (isItem_of_isStatement hBody))
  | _ => simp [Node.bodies]

theorem isCall_of_isValue {s : Node} (hItem : s.isAbsent = true ∨ s.isItem = true)
    (hValue : s.isValue = true) : s.isCall = true := by
  cases s with
  | call => rfl
  | _ => simp_all [isAbsent, isItem, isStatement, isValue]

theorem IsPart.present (h : n.IsPart) : n.isAbsent = false := by
  cases n with
  | absent => rcases h with h | h <;> cases h
  | _ => rfl

theorem conventional_of_isProgram {root : Node} (h : root.isProgram = true) :
    root.Conventional := by
  cases root with
  | block span items synthetic =>
    simp only [isProgram, Bool.and_eq_true, List.all_eq_true] at h
    obtain ⟨rfl, hItems⟩ := h
    have hBelow : ∀ x ∈ walkAll items, x.IsPart :=
      forall_walkAll_iff.mpr fun n hn => isPart_of_mem_walk (hItems n hn)
    -- The root is the one node that is not a part; no kind of node below is a synthetic block.
    have hPart : ∀ x ∈ (block span items true).walk, x.isSynthetic = false → x.IsPart := by
      intro x hx hWritten
      rw [walk, List.mem_cons] at hx
      rcases hx with rfl | hx
      · cases hWritten
      · exact hBelow x hx
    constructor
    case root_synthetic => rfl
    case others_written =>
      intro n hn
      cases n with
      | block => exact (isPart_block_iff.mp (hBelow _ hn)).1
      | _ => rfl
    case functions_on_top =>
      intro n hn c hc
      have hChild := (hBelow n hn).children c hc
      cases c with
      | func => simp [isAbsent, isExpression, isStatement] at hChild
      | _ => rfl
    case assigned_place =>
      exact fun _ _ _ hMem => (isPart_assign_iff.mp (hPart _ hMem rfl)).1
    case indexed_place =>
      exact fun _ _ _ hMem => (isPart_subscript_iff.mp (hPart _ hMem rfl)).1
    case callee_name =>
      exact fun _ _ _ hMem => isIdent_of_isFreeName (isPart_call_iff.mp (hPart _ hMem rfl)).1
    case parameter_names =>
      intro _ _ _ _ hMem x hx
      exact isIdent_of_isFreeName ((isPart_func_iff.mp (hPart _ hMem rfl)).2.1 x hx)
    case global_names =>
      intro _ _ hMem x hx
      exact isIdent_of_isFreeName (isPart_globals_iff.mp (hPart _ hMem rfl) x hx)
    case values_used =>
      intro n hn s hs
      apply isCall_of_isValue
      rw [walk, List.mem_cons] at hn
      rcases hn with rfl | hn
      · exact .inr (hItems s hs)
      · exact (hBelow n hn).bodies s hs
    case concat_stringy =>
      exact fun _ _ _ hMem => (isPart_concat_iff.mp (hPart _ hMem rfl)).1
    case strCompare_stringy =>
      exact fun _ _ _ _ hMem => (isPart_strCompare_iff.mp (hPart _ hMem rfl)).2.1
    case binary_not_stringy =>
      intro _ op _ _ hMem hOp
      have hOverloaded : isOverloaded op = true := by
        rcases hOp with rfl | rfl | rfl <;> rfl
      exact (isPart_binary_iff.mp (hPart _ hMem rfl)).2.1.resolve_left (by simp [hOverloaded])
    case signed_not_number =>
      exact fun _ _ hMem => (isPart_unary_iff.mp (hPart _ hMem rfl)).2.1.resolve_left (by simp)
    case name_free => exact fun _ _ hMem => isPart_ident_iff.mp (hPart _ hMem rfl)
    case function_free =>
      exact fun _ _ _ _ hMem => (isPart_func_iff.mp (hPart _ hMem rfl)).1
    case parts_present =>
      intro n hn c hc
      apply IsPart.present
      rw [walk, List.mem_cons] at hn
      rcases hn with rfl | hn
      · exact .inr (hItems c hc)
      · exact ((hBelow n hn).needed c hc).imp_right isItem_of_isStatement
  | _ => cases h

end BatchCompiler.Node

namespace BatchCompiler.Syntax

/-- Every tree that parsing returns keeps the conventions. -/
theorem parse?_conventional {settings : Settings} {tokens : List Token} {p : Parsed} {root : Node}
    (hParse : parse? settings tokens = some p) (hRoot : p.result = .ok root) :
    root.Conventional :=
  Node.conventional_of_isProgram
    (formed_of_parse (N := fun _ => True) (fun _ _ _ => trivial) hParse hRoot).shape

def variedSource : List Char :=
  ("func f(a, b) \x7b global g; if (a == \"x\") return; g[a] = -b + \"y\" + 1; \x7d " ++
    "f(-1, [2 == b]);").toList

theorem parse?_conventional_variedSource :
    ∃ p root, parse? {} (Scanner.start {} 0 variedSource).tokens.1 = some p ∧
      p.result = .ok root ∧ root.walk.length = 29 ∧ root.Conventional := by
  have hEval : (parse? {} (Scanner.start {} 0 variedSource).tokens.1).map
      (fun p => p.result.toOption.map fun root => root.walk.length) = some (some 29) := by
    decide +kernel
  obtain ⟨p, hParse, hLength⟩ := Option.map_eq_some_iff.mp hEval
  cases hRoot : p.result with
  | ok root =>
    rw [hRoot] at hLength
    exact ⟨p, root, hParse, hRoot, Option.some.inj hLength, parse?_conventional hParse hRoot⟩
  | error why =>
    rw [hRoot] at hLength
    cases hLength

end BatchCompiler.Syntax
