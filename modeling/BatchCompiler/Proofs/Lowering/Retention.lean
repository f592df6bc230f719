import BatchCompiler.Proofs.Lowering.Words
import BatchCompiler.Proofs.Syntax.Texts

/-!
# Lowering loses no text

What is lowered to a place or a number has no texts. Any other text of a tree is a word of the code
that the tree is lowered to.
-/

namespace BatchCompiler.Lowering

open Target

theorem PlaceFor.texts_eq {n : Node} {p : Place} (h : PlaceFor n p) : n.texts = [] := by
  induction h with
  | name => rfl
  | item hBase ih => rw [Node.texts_subscript, ih]; rfl
  | itemRead hBase hIndex ihBase ihIndex =>
    rw [Node.texts_subscript, ihBase, ihIndex, List.append_nil]

theorem ArithFor.texts_eq {n : Node} {a : Arith} (h : ArithFor n a) : n.texts = [] := by
  induction h with
  | bool | number => rfl
  | read h => exact h.texts_eq
  | plus h ih | unary hOp h ih => exact ih
  | binary hOp hl hr ihl ihr => rw [Node.texts_binary, ihl, ihr, List.append_nil]

section

variable {scope s : String}

variable {n : Node} {ns : List Node} {name : String} {t t' : Progress}

variable {texts : List (List Fragment)} {table : ScopeTable} {k k' : Nat}
  {regions : List (Region × List Stmt)}

theorem TextFor.mem_words {fs : List Fragment} (h : TextFor n fs) (hs : s ∈ n.texts) :
    .text s ∈ textWords fs := by
  induction h with
  | bool | number => cases hs
  | string span v =>
    rw [List.mem_singleton.mp hs]
    exact List.mem_cons_self
  | read h =>
    rw [h.texts_eq] at hs
    cases hs
  | concat hl hr ihl ihr =>
    rw [Node.texts_concat, List.mem_append] at hs
    rw [textWords, List.flatMap_append, List.mem_append]
    exact hs.imp ihl ihr

theorem mem_words_of_lowerCondition {c : Comparison} (h : lowerCondition scope n = .ok c)
    (hs : s ∈ n.texts) : .text s ∈ c.words := by
  cases conditionFor_of_lowerCondition h with
  | texts hOp hl hr =>
    rw [Node.texts_strCompare, List.mem_append] at hs
    exact List.mem_append.mpr (hs.imp hl.mem_words hr.mem_words)
  | relation hRelational hOp hl hr =>
    rw [Node.texts_binary, List.mem_append] at hs
    exact List.mem_append.mpr (hs.imp hl.mem_words hr.mem_words)
  | read hPlace =>
    rw [hPlace.texts_eq] at hs
    cases hs
  | bool | number => cases hs

theorem mem_words_of_mapM_lowerText (h : ns.mapM (lowerText scope) = .ok texts)
    (hs : s ∈ Node.textsOf ns) : .text s ∈ texts.flatMap textWords := by
  have hEach := forall₂_of_mapM_lowerText h
  clear h
  induction hEach with
  | nil => cases hs
  | cons h _ ih =>
    rw [Node.textsOf_cons, List.mem_append] at hs
    rw [List.flatMap_cons, List.mem_append]
    exact hs.imp h.mem_words ih

theorem mem_words_of_lowerAssign {dst : Place} {A : List Stmt} (h : lowerAssign scope dst n = .ok A)
    (hs : s ∈ n.texts) : .text s ∈ wordsOf A := by
  refine lowerAssign_induction (P := fun _ n A => s ∈ n.texts → .text s ∈ wordsOf A) ?_ ?_ ?_ h hs
  · intro dst n fs h hs
    exact List.mem_append_left _ (h.mem_words hs)
  · intro dst n a h hs
    rw [h.texts_eq] at hs
    cases hs
  · intro dst span elems A h hs
    rw [Node.texts_list] at hs
    generalize 0 = position at h
    induction h with
    | nil => cases hs
    | cons h _ ih =>
      rw [Node.textsOf_cons, List.mem_append] at hs
      rw [wordsOf_append, List.mem_append]
      exact hs.imp h ih

theorem mem_words_callStmt (h : .text s ∈ texts.flatMap textWords) :
    .text s ∈ (callStmt table name texts).words := by
  unfold callStmt
  split
  · exact List.mem_cons_of_mem _ (List.mem_cons_of_mem _ (List.mem_cons_of_mem _ h))
  · exact List.mem_cons_of_mem _ h

theorem Lowered.mem_words {c : Context} {T : List Stmt} (h : Lowered c ns k T k')
    (hs : s ∈ Node.textsOf ns) : .text s ∈ wordsOf T := by
  induction h with
  | nil => cases hs
  | @skip n ns T k k' hn h ih =>
    have hNone : n.texts = [] := by
      cases n with
      | absent | empty | globals => rfl
      | _ => cases hn
    rw [Node.textsOf_cons, hNone] at hs
    exact ih hs
  | comment h ih | ret h ih => exact List.mem_append_right _ (ih hs)
  | block hBody h ihBody ih =>
    rw [Node.textsOf_cons, List.mem_append] at hs
    rw [wordsOf_append, List.mem_append]
    exact hs.imp ihBody ih
  | call hArgs h ih =>
    rw [Node.textsOf_cons, Node.texts_call, List.mem_append] at hs
    rw [wordsOf, List.mem_append]
    exact hs.imp (fun hs => mem_words_callStmt (mem_words_of_mapM_lowerText hArgs hs)) ih
  | assign hLhs hRhs h ih =>
    rw [Node.textsOf_cons, Node.texts_assign, (placeFor_of_lowerPlace hLhs).texts_eq, List.nil_append,
      List.mem_append] at hs
    rw [wordsOf_append, List.mem_append]
    exact hs.imp (mem_words_of_lowerAssign hRhs) ih
  | branch hCond hThen h ihThen ih =>
    simp only [Node.textsOf_cons, Node.texts_branch, Node.textsOf_nil, List.mem_append] at hs ihThen
    simp only [wordsOf, Stmt.words, List.mem_append]
    rcases hs with ((hs | hs) | hs) | hs
    · exact .inl (.inl (mem_words_of_lowerCondition hCond hs))
    · exact .inl (.inr (ihThen (.inl hs)))
    · cases hs
    · exact .inr (ih hs)
  | branchElse hElseBody hCond hThen hElse h ihThen ihElse ih =>
    simp only [Node.textsOf_cons, Node.texts_branch, Node.textsOf_nil, List.mem_append]
      at hs ihThen ihElse
    simp only [wordsOf, Stmt.words, List.mem_append]
    rcases hs with ((hs | hs) | hs) | hs
    · exact .inl (.inl (.inl (mem_words_of_lowerCondition hCond hs)))
    · exact .inl (.inl (.inr (ihThen (.inl hs))))
    · exact .inl (.inr (ihElse (.inl hs)))
    · exact .inr (ih hs)
  | loop hCond hBody h ihBody ih =>
    simp only [Node.textsOf_cons, Node.texts_loop, Node.textsOf_nil, List.mem_append] at hs ihBody
    simp only [wordsOf, Stmt.words, wordsOf_append, List.mem_append]
    rcases hs with (hs | hs) | hs
    · exact .inr (.inl (.inl (mem_words_of_lowerCondition hCond hs)))
    · exact .inr (.inl (.inr (.inl (ihBody (.inl hs)))))
    · exact .inr (.inr (ih hs))
  | retValue he hFunction hValue h ih =>
    rw [Node.textsOf_cons, Node.texts_ret, List.mem_append] at hs
    rw [wordsOf_append, List.mem_append]
    exact hs.imp (mem_words_of_lowerAssign hValue) fun hs => List.mem_append_right _ (ih hs)

theorem texts_of_parameterNames {params : List Node} {names : List String}
    (h : parameterNames params = .ok names) : Node.textsOf params = [] := by
  induction params generalizing names with
  | nil => rfl
  | cons p rest ih =>
    cases p with
    | ident span name =>
      obtain ⟨others, hOthers, -⟩ := exists_of_bind_eq_ok h
      exact ih hOthers
    | _ => cases h

variable {c : Context}

theorem mem_words_assemble {params : List String} {body : List Stmt} (h : .text s ∈ wordsOf body) :
    .text s ∈ wordsOf (assemble name params body) := by
  simp only [assemble, wordsOf_append, List.mem_append]
  exact .inl (.inl (.inr h))

theorem LoweredEach.mem_words (h : LoweredEach c ns k regions k') (hs : s ∈ Node.textsOf ns) :
    .text s ∈ wordsOf (joined regions) := by
  induction h with
  | nil => cases hs
  | @cons span name params ns body _ stmts framed _ _ _ _ _ _ hBody hFrame hNames _ ih =>
    rw [Node.textsOf_cons, List.mem_append, Node.texts_func, texts_of_parameterNames hNames] at hs
    rw [joined, List.flatMap_cons, wordsOf_append, List.mem_append]
    refine hs.imp (fun hs => mem_words_assemble ?_) ih
    rw [eq_framed stmts framed hFrame, wordsOf_framed]
    exact hBody.mem_words (Node.mem_textsOf.mpr ⟨body, List.mem_singleton_self body, hs⟩)

theorem mem_words_of_lowerRegions {items : List Node}
    (h : (lowerRegions c items).run t = (.ok regions, t')) (hs : s ∈ Node.textsOf items) :
    .text s ∈ wordsOf (joined regions) := by
  obtain ⟨top, funcs, k, rfl, hTop, hFuncs⟩ := exists_of_lowerRegions h
  obtain ⟨n, hn, hs⟩ := Node.mem_textsOf.mp hs
  rw [joined, List.flatMap_cons, wordsOf_append, List.mem_append]
  by_cases hFunc : n.isFunc = true
  · have hMem : n ∈ items.filter Node.isFunc := List.mem_filter.mpr ⟨hn, hFunc⟩
    exact .inr (hFuncs.mem_words (Node.mem_textsOf.mpr ⟨n, hMem, hs⟩))
  · have hMem : n ∈ items.filter fun n => !n.isFunc :=
      List.mem_filter.mpr ⟨hn, by simpa using hFunc⟩
    exact .inl (hTop.mem_words (Node.mem_textsOf.mpr ⟨n, hMem, hs⟩))

theorem mem_words_of_lower {settings : Settings} {root : Node} {p : Program}
    (h : (lower settings table root).1 = .ok p) (hs : s ∈ root.texts) : .text s ∈ wordsOf p := by
  have hItems : Node.textsOf (ScopeTable.itemsOf root) = root.texts := by
    cases root with
    | absent | block => rfl
    | _ => simp [ScopeTable.itemsOf]
  obtain ⟨regions, t, hRun, rfl⟩ := exists_run_of_lower_eq_ok h
  rw [wordsOf_append, List.mem_append]
  exact .inr (mem_words_of_lowerRegions hRun (hItems ▸ hs))

end

end BatchCompiler.Lowering
