import BatchCompiler.Proofs.Lowering.Framing
import BatchCompiler.Proofs.Scope.Table

/-!
# The faults of a tree

All the places of a tree that lowering objects to, in the order in which it meets them. Lowering a
tree succeeds if it has no faults, and otherwise reports the first of them.
-/

namespace BatchCompiler.Lowering

open Target

variable {c : Context} {ns params : List Node} {span : Span}

inductive Objection where
  | problem (p : Problem)
  | crash (why : Crash)
deriving DecidableEq, Repr

def Failure.fault : Failure → Objection
  | .rejected e => .problem e.problem
  | .crash why => .crash why

def fault? {α : Type} : Except Failure α → Option Objection
  | .ok _ => none
  | .error e => some e.fault

mutual

def placeFaults : Node → List Objection
  | .ident .. => []
  | .subscript _ array index => placeFaults array ++ indexFaults index
  | .absent => [.crash .absentPart]
  | n => [.problem (.notAPlace n.shape)]

def indexFaults : Node → List Objection
  | .ident .. | .number .. => []
  | .subscript _ array index => placeFaults array ++ indexFaults index
  | .absent => [.crash .absentPart]
  | n => [.problem (.badIndex n.shape)]

end

def unaryFaults (op : TokenKind) : List Objection :=
  if op = .plus || (unaryOp? op).isSome then [] else [.problem (.unknownUnary op)]

def arithFaults : Node → List Objection
  | .bool .. | .number .. | .ident .. => []
  | .subscript _ array index => placeFaults array ++ indexFaults index
  | .unary _ op e => arithFaults e ++ unaryFaults op
  | .binary _ op l r =>
    if (arithOp? op).isSome then arithFaults l ++ arithFaults r
    else [.problem (.comparisonAsNumber op)]
  | .absent => [.crash .absentPart]
  | n => [.problem (.notANumber n.shape)]

def textFaults : Node → List Objection
  | .bool .. | .number .. | .string .. | .ident .. => []
  | .subscript _ array index => placeFaults array ++ indexFaults index
  | .concat _ l r => textFaults l ++ textFaults r
  | .call .. => [.problem .capturedCall]
  | .float .. => [.problem .floatAsText]
  | .absent => [.crash .absentPart]
  | n => [.problem (.notAText n.shape)]

def textsFaults (ns : List Node) : List Objection :=
  ns.flatMap textFaults

def compareFaults (op : TokenKind) (l r : Node) : List Objection :=
  if (cmpOp? op).isSome then textFaults l ++ textFaults r else [.problem (.unknownComparison op)]

def conditionFaults : Node → List Objection
  | .strCompare _ op l r => compareFaults op l r
  | n@(.binary _ op l r) =>
    if op.isRelational then compareFaults op l r else [.problem (.notACondition n.shape)]
  | .ident .. | .bool .. | .number .. => []
  | .subscript _ array index => placeFaults array ++ indexFaults index
  | .absent => [.crash .absentPart]
  | n => [.problem (.notACondition n.shape)]

mutual

def valueFaults : Node → List Objection
  | .list _ elems => valuesFaults elems
  | n@(.string ..) | n@(.strCompare ..) | n@(.concat ..) | n@(.call ..) | n@(.ident ..)
  | n@(.subscript ..) => textFaults n
  | n@(.bool ..) | n@(.number ..) | n@(.float ..) | n@(.unary ..) | n@(.binary ..) => arithFaults n
  | .absent => [.crash .absentPart]
  | n => [.problem (.notAValue n.shape)]

def valuesFaults : List Node → List Objection
  | [] => []
  | n :: rest => valueFaults n ++ valuesFaults rest

end

def calleeFaults : Node → List Objection
  | .ident .. => []
  | .absent => [.crash .absentPart]
  | n => [.problem (.calleeNotAName n.shape)]

mutual

/-- `inFunction` tells whether a value may be returned. -/
def statementFaults (inFunction : Bool) : Node → List Objection
  | .absent | .comment .. | .globals .. | .empty .. => []
  | .block _ stmts _ => statementsFaults inFunction stmts
  | .call _ callee args => calleeFaults callee ++ textsFaults args
  | .assign _ lhs rhs => placeFaults lhs ++ valueFaults rhs
  | .branch _ cond thenBody elseBody =>
    conditionFaults cond ++ statementFaults inFunction thenBody ++ statementFaults inFunction elseBody
  | .loop _ cond body => conditionFaults cond ++ statementFaults inFunction body
  | .ret _ e =>
    if e.isAbsent then [] else if inFunction then valueFaults e else [.problem .valueOutsideFunction]
  | n => [.problem (.notAStatement n.shape)]

def statementsFaults (inFunction : Bool) : List Node → List Objection
  | [] => []
  | n :: rest =>
    (if n.isAbsent then [.crash .absentPart] else statementFaults inFunction n) ++
      statementsFaults inFunction rest

end

def bodyFaults : Node → List Objection
  | .func _ _ _ body => statementFaults true body
  | _ => []

def programFaults (root : Node) : List Objection :=
  statementsFaults false ((ScopeTable.itemsOf root).filter fun n => !n.isFunc) ++
    ((ScopeTable.itemsOf root).filter Node.isFunc).flatMap bodyFaults

theorem statementsFaults_append (inFunction : Bool) (a b : List Node) :
    statementsFaults inFunction (a ++ b) =
      statementsFaults inFunction a ++ statementsFaults inFunction b := by
  induction a with
  | nil => rfl
  | cons n rest ih => rw [List.cons_append, statementsFaults, statementsFaults, ih, List.append_assoc]

theorem statementsFaults_singleton (inFunction : Bool) {n : Node} (h : n.isAbsent = false) :
    statementsFaults inFunction [n] = statementFaults inFunction n := by
  rw [statementsFaults, statementsFaults, h, List.append_nil]
  rfl

def Reports {α : Type} (x : Except Failure α) (faults : List Objection) : Prop :=
  fault? x = faults.head?

section

variable {α β : Type}

variable {x : Except Failure α} {faults : List Objection}

theorem reports_pure (a : α) : Reports (pure a) [] := rfl

theorem reports_reject (scope : String) (n : Node) (p : Problem) :
    Reports (reject scope n p : Except Failure α) [.problem p] := rfl

theorem Reports.bind {k : α → Except Failure β} {more : List Objection} (hx : Reports x faults)
    (hk : ∀ a, Reports (k a) more) : Reports (x >>= k) (faults ++ more) := by
  unfold Reports at *
  rw [List.head?_append, ← hx]
  cases x with
  | error e => rfl
  | ok a => exact hk a

theorem Reports.map (hx : Reports x faults) (f : α → β) :
    Reports (x >>= fun a => pure (f a)) faults := by
  have h := hx.bind fun a => reports_pure (f a)
  rwa [List.append_nil] at h

theorem Reports.isOk_iff (h : Reports x faults) : (∃ a, x = .ok a) ↔ faults = [] := by
  unfold Reports at h
  cases x with
  | error e =>
    constructor
    · rintro ⟨a, ⟨⟩⟩
    · rintro rfl
      cases h
  | ok a =>
    constructor
    · intro _
      exact List.head?_eq_none_iff.mp h.symm
    · intro _
      exact ⟨a, rfl⟩

end

section

variable (scope : String)

theorem reports_lowerPlace_lowerIndex (n : Node) :
    Reports (lowerPlace scope n) (placeFaults n) ∧ Reports (lowerIndex scope n) (indexFaults n) := by
  induction n using Node.induction with
  | subscript span array index ihArray ihIndex =>
    simp only [lowerPlace, lowerIndex, placeFaults, indexFaults]
    constructor
    · exact ihArray.1.bind fun base => ihIndex.2.map _
    · exact ihArray.1.bind fun base => ihIndex.2.map _
  | _ => exact ⟨rfl, rfl⟩

theorem reports_lowerPlace (n : Node) : Reports (lowerPlace scope n) (placeFaults n) :=
  (reports_lowerPlace_lowerIndex scope n).1

theorem reports_lowerArith (n : Node) : Reports (lowerArith scope n) (arithFaults n) := by
  induction n using Node.induction with
  | ident => rfl
  | subscript span array index => exact (reports_lowerPlace scope (.subscript span array index)).map _
  | unary span op e ih =>
    rw [lowerArith, arithFaults]
    refine ih.bind fun e => ?_
    unfold unaryFaults
    by_cases hPlus : op = .plus
    · rw [if_pos hPlus, if_pos (by simp [hPlus])]
      exact reports_pure _
    · rw [if_neg hPlus]
      cases hOp : unaryOp? op with
      | some op' =>
        rw [if_pos (by simp)]
        exact reports_pure _
      | none =>
        rw [if_neg (by simp [hPlus])]
        exact reports_reject _ _ _
  | binary span op l r ihl ihr =>
    rw [lowerArith, arithFaults]
    cases hOp : arithOp? op with
    | none => exact reports_reject _ _ _
    | some op' =>
      rw [if_pos (by simp)]
      exact ihl.bind fun l => ihr.map _
  | _ => rfl

theorem reports_lowerText (n : Node) : Reports (lowerText scope n) (textFaults n) := by
  induction n using Node.induction with
  | ident => rfl
  | subscript span array index => exact (reports_lowerPlace scope (.subscript span array index)).map _
  | concat span l r ihl ihr =>
    rw [lowerText, textFaults]
    exact ihl.bind fun l => ihr.map _
  | _ => rfl

theorem reports_mapM_lowerText (ns : List Node) :
    Reports (ns.mapM (lowerText scope)) (textsFaults ns) := by
  induction ns with
  | nil => rfl
  | cons n rest ih =>
    rw [List.mapM_cons, textsFaults, List.flatMap_cons]
    exact (reports_lowerText scope n).bind fun first => ih.map _

theorem reports_compareTexts (n : Node) (op : TokenKind) (l r : Node) :
    Reports (compareTexts scope n op l r) (compareFaults op l r) := by
  unfold compareTexts compareFaults
  cases hOp : cmpOp? op with
  | none => exact reports_reject _ _ _
  | some op' =>
    rw [if_pos (by simp)]
    exact (reports_lowerText scope l).bind fun l => (reports_lowerText scope r).map _

theorem reports_lowerCondition (n : Node) :
    Reports (lowerCondition scope n) (conditionFaults n) := by
  cases n with
  | strCompare span op l r => exact reports_compareTexts scope _ op l r
  | binary span op l r =>
    rw [lowerCondition, conditionFaults]
    split
    · exact reports_compareTexts scope _ op l r
    · exact reports_reject _ _ _
  | subscript span array index => exact (reports_lowerPlace scope (.subscript span array index)).map _
  | _ => rfl

theorem reports_lowerElements {elems : List Node}
    (h : ∀ e ∈ elems, ∀ dst, Reports (lowerAssign scope dst e) (valueFaults e)) (dst : Place)
    (position : Nat) : Reports (lowerElements scope dst position elems) (valuesFaults elems) := by
  induction elems generalizing position with
  | nil => rfl
  | cons e rest ih =>
    rw [lowerElements, valuesFaults]
    refine (h e List.mem_cons_self _).bind fun first => ?_
    exact (ih (fun x hx => h x (List.mem_cons_of_mem e hx)) (position + 1)).map _

theorem reports_lowerAssign (dst : Place) (n : Node) :
    Reports (lowerAssign scope dst n) (valueFaults n) := by
  induction n using Node.induction generalizing dst with
  | list span elems ih =>
    rw [lowerAssign, valueFaults]
    exact reports_lowerElements scope (fun e he dst => ih e he dst) dst 0
  | string span v => rfl
  | strCompare | concat | call | ident | subscript => exact (reports_lowerText scope _).map _
  | bool | number | float | unary | binary => exact (reports_lowerArith scope _).map _
  | _ => rfl

end

def Finds {α : Type} (m : Lower α) (faults : List Objection) : Prop :=
  ∀ s, fault? (m.run s).1 = faults.head?

section

variable {α β : Type}

variable {faults : List Objection} {m : Lower α}

theorem finds_pure (a : α) : Finds (pure a) [] := fun _ => rfl

theorem finds_remark (c : Context) (w : Warning) (span : Span) (message : String) :
    Finds (remark c w span message) [] := fun _ => rfl

theorem finds_newLabel : Finds newLabel [] := fun _ => rfl

theorem Reports.finds {x : Except Failure α} (h : Reports x faults) :
    Finds (liftLower x) faults := by
  intro s
  cases x with
  | error e => exact h
  | ok a => exact h

theorem Finds.bind_of_run {k : α → Lower β} {more : List Objection} (hm : Finds m faults)
    (hk : ∀ a s s', m.run s = (.ok a, s') → fault? ((k a).run s').1 = more.head?) :
    Finds (m >>= k) (faults ++ more) := by
  intro s
  have hRun : (m >>= k).run s = ExceptT.bindCont k (m.run s).1 (m.run s).2 := rfl
  rw [hRun, List.head?_append, ← hm s]
  rcases hs : m.run s with ⟨result, s'⟩
  cases result with
  | error e => rfl
  | ok a => exact hk a s s' hs

theorem Finds.bind {k : α → Lower β} {more : List Objection} (hm : Finds m faults)
    (hk : ∀ a, Finds (k a) more) : Finds (m >>= k) (faults ++ more) :=
  hm.bind_of_run fun a _ s' _ => hk a s'

theorem Finds.map (hm : Finds m faults) (f : α → β) : Finds (m >>= fun a => pure (f a)) faults := by
  have h := hm.bind fun a => finds_pure (f a)
  rwa [List.append_nil] at h

theorem finds_ite {p : Prop} [Decidable p] {t e : Lower α} (ht : Finds t faults)
    (he : Finds e faults) : Finds (if p then t else e) faults := by
  split
  · exact ht
  · exact he

end

theorem finds_lowerCall (c : Context) (span : Span) (n callee : Node) (args : List Node) :
    Finds (lowerCall c span n callee args) (calleeFaults callee ++ textsFaults args) := by
  cases callee with
  | ident nameSpan name =>
    have hArgs := (reports_mapM_lowerText c.scope args).finds
    have hRest : ∀ texts, Finds (if c.table.isFunction name then do
        if name = c.function then
          remark c .recursion span
            ("Recursive call to '" ++ name ++ "' shares its locals with the caller")
        pure [Stmt.call (.text (":" ++ name)) ([.text returnRegister] :: [.text frameNumber] :: texts)]
      else do
        remark c .externCall span
          ("'" ++ name ++ "' is not a declared function and runs as a command")
        pure [Stmt.call (.text name) texts]) [] := by
      intro texts
      refine finds_ite (finds_ite ?_ (finds_pure _)) ?_
      · exact (finds_remark c _ _ _).map _
      · exact (finds_remark c _ _ _).map _
    have h := hArgs.bind hRest
    rw [List.append_nil] at h
    exact h
  | _ => exact fun _ => rfl

theorem finds_lowerStatements
    (h : ∀ n ∈ ns, Finds (lowerStatement c n) (statementFaults (decide (c.function ≠ "")) n))
    (returned : Bool) :
    Finds (lowerStatements c returned ns) (statementsFaults (decide (c.function ≠ "")) ns) := by
  induction ns generalizing returned with
  | nil => exact fun _ => rfl
  | cons n rest ih =>
    have hRest := fun returned => ih (fun x hx => h x (List.mem_cons_of_mem n hx)) returned
    rw [lowerStatements, statementsFaults]
    split
    · exact fun _ => rfl
    · have hBoth : ∀ returned, Finds (do
          let first ← lowerStatement c n
          let rest ← lowerStatements c returned rest
          pure (first ++ rest))
          (statementFaults (decide (c.function ≠ "")) n ++
            statementsFaults (decide (c.function ≠ "")) rest) :=
        fun returned => (h n List.mem_cons_self).bind fun first => (hRest returned).map _
      exact finds_ite ((finds_remark c _ _ _).bind fun _ => hBoth _) (hBoth _)

theorem finds_lowerStatement (c : Context) (n : Node) :
    Finds (lowerStatement c n) (statementFaults (decide (c.function ≠ "")) n) := by
  induction n using Node.induction with
  | block span stmts synthetic ih =>
    rw [lowerStatement, statementFaults]
    exact finds_lowerStatements ih false
  | call span callee args =>
    rw [lowerStatement, statementFaults]
    exact finds_lowerCall c span _ callee args
  | assign span lhs rhs =>
    rw [lowerStatement, statementFaults]
    exact (reports_lowerPlace c.scope lhs).finds.bind fun dst =>
      (reports_lowerAssign c.scope dst rhs).finds
  | branch span cond thenBody elseBody ihCond ihThen ihElse =>
    rw [lowerStatement, statementFaults, List.append_assoc]
    refine (reports_lowerCondition c.scope cond).finds.bind fun cond => ihThen.bind fun body => ?_
    split
    · next hAbsent =>
      cases elseBody with
      | absent => exact finds_pure _
      | _ => cases hAbsent
    · exact ihElse.map _
  | loop span cond body ihCond ihBody =>
    rw [lowerStatement, statementFaults]
    refine finds_newLabel.bind fun label => ?_
    exact (reports_lowerCondition c.scope cond).finds.bind fun cond => ihBody.map _
  | ret span e =>
    rw [lowerStatement, statementFaults]
    split
    · exact finds_pure _
    · by_cases hFunction : c.function = ""
      · rw [if_pos hFunction, if_neg (by simp [hFunction])]
        exact (reports_reject c.scope _ _).finds
      · rw [if_neg hFunction, if_pos (by simp [hFunction])]
        exact (reports_lowerAssign c.scope _ e).finds.map _
  | globals span names =>
    rw [lowerStatement, statementFaults]
    exact finds_ite ((finds_remark c _ _ _).map _) (finds_pure _)
  | _ => exact fun _ => rfl

def IsDeclared (table : ScopeTable) : Node → Prop
  | .func _ name params _ =>
    name ≠ "" ∧ name ∈ table.functionNames ∧ ∀ p ∈ params, ∃ span x, p = .ident span x
  | _ => True

theorem exists_parameterNames_eq (h : ∀ p ∈ params, ∃ span x, p = .ident span x) :
    ∃ names, parameterNames params = .ok names := by
  induction params with
  | nil => exact ⟨[], rfl⟩
  | cons p rest ih =>
    obtain ⟨span, x, rfl⟩ := h p List.mem_cons_self
    exact exists_bind_eq_ok (ih fun y hy => h y (List.mem_cons_of_mem _ hy)) fun names => ⟨_, rfl⟩

theorem finds_lowerFunction {name : String} {body : Node}
    (h : IsDeclared c.table (.func span name params body)) :
    Finds (lowerFunction c span name params body) (statementFaults true body) := by
  obtain ⟨hName, hDeclared, hParams⟩ := h
  obtain ⟨scope, hScope⟩ := Option.isSome_iff_exists.mp
    (ScopeTable.functionScope?_isSome_iff.mpr hDeclared)
  obtain ⟨names, hNames⟩ := exists_parameterNames_eq hParams
  have hBody := finds_lowerStatement { c with scope := scope.name, function := name } body
  rw [decide_eq_true hName] at hBody
  rw [lowerFunction, hScope, ← List.append_nil (statementFaults true body)]
  refine hBody.bind_of_run fun stmts s s' hRun => ?_
  obtain ⟨framed, hFramed⟩ := (loweredBefore_of_lowerStatement hRun).alone.framable
  rw [hFramed, hNames]
  rfl

theorem finds_lowerFunctions (h : ∀ n ∈ ns, IsDeclared c.table n) :
    Finds (lowerFunctions c ns) (ns.flatMap bodyFaults) := by
  induction ns with
  | nil => exact fun _ => rfl
  | cons n rest ih =>
    have hRest := ih fun x hx => h x (List.mem_cons_of_mem n hx)
    cases n with
    | func span name params body =>
      exact (finds_lowerFunction (h _ List.mem_cons_self)).bind fun first => hRest.map _
    | _ => exact hRest

theorem fault?_lower {settings : Settings} {table : ScopeTable} {items : List Node}
    {synthetic : Bool} (hPresent : ∀ n ∈ items, n.isAbsent = false)
    (hDeclared : ∀ n ∈ items, IsDeclared table n) :
    fault? (lower settings table (.block span items synthetic)).1 =
      (programFaults (.block span items synthetic)).head? := by
  let c : Context := { settings := settings, table := table }
  have hAny : items.any Node.isAbsent = false := List.any_eq_false.mpr fun n hn => by
    simp [hPresent n hn]
  have hTop : Finds (lowerStatements c false (items.filter fun n => !n.isFunc))
      (statementsFaults false (items.filter fun n => !n.isFunc)) :=
    finds_lowerStatements (fun n _ => finds_lowerStatement c n) false
  have hFunctions : Finds (lowerFunctions c (items.filter Node.isFunc))
      ((items.filter Node.isFunc).flatMap bodyFaults) :=
    finds_lowerFunctions fun n hn => hDeclared n (List.mem_filter.mp hn).1
  have hItems : Finds (lowerItems c items) (programFaults (.block span items synthetic)) := by
    rw [lowerItems, if_neg (by simp [hAny])]
    exact hTop.bind fun stmts => hFunctions.map _
  exact hItems {}

end BatchCompiler.Lowering
