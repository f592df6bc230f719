import BatchCompiler.Proofs.Lowering.Expressions
import BatchCompiler.Scope.Declarations

/-!
# What statements are lowered to

One rule for each kind of statement, in front of the statements that follow it. Loops are numbered
in the order in which they start, and their labels are numbered with them.
-/

namespace BatchCompiler.Lowering

open Target

variable {s s' : Progress} {c : Context} {span : Span} {n : Node} {T A : List Stmt} {k : Nat}
  {ns : List Node}

def labelName (number : Nat) : String := "__L" ++ Number.natText number

def callStmt (table : ScopeTable) (name : String) (texts : List (List Fragment)) : Stmt :=
  if table.isFunction name then
    .call (.text (":" ++ name)) ([.text returnRegister] :: [.text frameNumber] :: texts)
  else .call (.text name) texts

def isSkipped : Node → Bool
  | .absent | .empty .. | .globals .. => true
  | _ => false

/-- `Lowered c ns k stmts k'` says that `ns` becomes `stmts`, with the loops in it numbered from `k`
up to but not including `k'`. -/
inductive Lowered (c : Context) : List Node → Nat → List Stmt → Nat → Prop where
  | nil {k : Nat} : Lowered c [] k [] k
  | skip {n : Node} {ns : List Node} {T : List Stmt} {k k' : Nat} (hn : isSkipped n = true)
    (h : Lowered c ns k T k') : Lowered c (n :: ns) k T k'
  | comment {span : Span} {text : String} {ns : List Node} {T : List Stmt} {k k' : Nat}
    (h : Lowered c ns k T k') : Lowered c (.comment span text :: ns) k (.comment text :: T) k'
  | block {span : Span} {stmts ns : List Node} {synthetic : Bool} {A T : List Stmt} {k k₁ k' : Nat}
    (hBody : Lowered c stmts k A k₁) (h : Lowered c ns k₁ T k') :
    Lowered c (.block span stmts synthetic :: ns) k (A ++ T) k'
  | call {span nameSpan : Span} {name : String} {args ns : List Node}
    {texts : List (List Fragment)} {T : List Stmt} {k k' : Nat}
    (hArgs : args.mapM (lowerText c.scope) = .ok texts) (h : Lowered c ns k T k') :
    Lowered c (.call span (.ident nameSpan name) args :: ns) k (callStmt c.table name texts :: T) k'
  | assign {span : Span} {lhs rhs : Node} {ns : List Node} {dst : Place} {A T : List Stmt}
    {k k' : Nat} (hLhs : lowerPlace c.scope lhs = .ok dst)
    (hRhs : lowerAssign c.scope dst rhs = .ok A) (h : Lowered c ns k T k') :
    Lowered c (.assign span lhs rhs :: ns) k (A ++ T) k'
  | branch {span : Span} {cond thenBody : Node} {ns : List Node} {test : Comparison}
    {A T : List Stmt} {k k₁ k' : Nat} (hCond : lowerCondition c.scope cond = .ok test)
    (hThen : Lowered c [thenBody] k A k₁) (h : Lowered c ns k₁ T k') :
    Lowered c (.branch span cond thenBody .absent :: ns) k (.whenTrue test A :: T) k'
  | branchElse {span : Span} {cond thenBody elseBody : Node} {ns : List Node} {test : Comparison}
    {A B T : List Stmt} {k k₁ k₂ k' : Nat} (hElseBody : elseBody.isAbsent = false)
    (hCond : lowerCondition c.scope cond = .ok test) (hThen : Lowered c [thenBody] k A k₁)
    (hElse : Lowered c [elseBody] k₁ B k₂) (h : Lowered c ns k₂ T k') :
    Lowered c (.branch span cond thenBody elseBody :: ns) k (.choose test A B :: T) k'
  | loop {span : Span} {cond body : Node} {ns : List Node} {test : Comparison}
    {A T : List Stmt} {k k₁ k' : Nat} (hCond : lowerCondition c.scope cond = .ok test)
    (hBody : Lowered c [body] (k + 1) A k₁) (h : Lowered c ns k₁ T k') :
    Lowered c (.loop span cond body :: ns) k
      (.label (labelName k) :: .whenTrue test (A ++ [.jump (labelName k)]) :: T) k'
  | ret {span : Span} {ns : List Node} {T : List Stmt} {k k' : Nat} (h : Lowered c ns k T k') :
    Lowered c (.ret span .absent :: ns) k (.jump endOfFile :: T) k'
  | retValue {span : Span} {e : Node} {ns : List Node} {A T : List Stmt} {k k' : Nat}
    (he : e.isAbsent = false) (hFunction : c.function ≠ "")
    (hValue : lowerAssign c.scope (.slot returnSlot) e = .ok A) (h : Lowered c ns k T k') :
    Lowered c (.ret span e :: ns) k (A ++ .jump endOfFile :: T) k'

theorem exists_of_run_bind {ε σ α β : Type} {m : ExceptT ε (StateM σ) α}
    {k : α → ExceptT ε (StateM σ) β} {s s' : σ} {b : β}
    (h : (m >>= k).run s = (.ok b, s')) :
    ∃ a s₁, m.run s = (.ok a, s₁) ∧ (k a).run s₁ = (.ok b, s') := by
  have hRun : (m >>= k).run s = ExceptT.bindCont k (m.run s).1 (m.run s).2 := rfl
  rw [hRun] at h
  rcases hm : m.run s with ⟨r, s₁⟩
  rw [hm] at h
  cases r with
  | error e => cases h
  | ok a => exact ⟨a, s₁, rfl, h⟩

theorem of_run_pure {α : Type} {a b : α} (h : (pure a : Lower α).run s = (.ok b, s')) :
    b = a ∧ s' = s := by
  cases h
  exact ⟨rfl, rfl⟩

theorem of_run_liftLower {α : Type} {x : Except Failure α} {a : α}
    (h : (liftLower x).run s = (.ok a, s')) : x = .ok a ∧ s' = s := by
  cases x with
  | error e => cases h
  | ok b =>
    obtain ⟨rfl, rfl⟩ := of_run_pure h
    exact ⟨rfl, rfl⟩

theorem of_run_newLabel {name : String} (h : newLabel.run s = (.ok name, s')) :
    name = labelName s.labels ∧ s'.labels = s.labels + 1 := by
  cases h
  exact ⟨rfl, rfl⟩

theorem of_run_remark {w : Warning} {message : String} {u : Unit}
    (h : (remark c w span message).run s = (.ok u, s')) : s'.labels = s.labels := by
  cases h
  rfl

theorem of_run_remark_bind {α : Type} {w : Warning} {message : String} {p : Prop} [Decidable p]
    {m : Lower α} {a : α}
    (h : (if p then remark c w span message >>= fun _ => m else m).run s = (.ok a, s')) :
    ∃ s₁, s₁.labels = s.labels ∧ m.run s₁ = (.ok a, s') := by
  split at h
  · obtain ⟨u, s₁, hRemark, h⟩ := exists_of_run_bind h
    exact ⟨s₁, of_run_remark hRemark, h⟩
  · exact ⟨s, rfl, h⟩

theorem of_run_lowerCall {callee : Node} {args : List Node}
    (h : (lowerCall c span n callee args).run s = (.ok T, s')) :
    ∃ nameSpan name texts, callee = .ident nameSpan name ∧
      args.mapM (lowerText c.scope) = .ok texts ∧ T = [callStmt c.table name texts] ∧
      s'.labels = s.labels := by
  cases callee with
  | ident nameSpan name =>
    obtain ⟨texts, s₁, hTexts, hRest⟩ := exists_of_run_bind h
    obtain ⟨hArgs, rfl⟩ := of_run_liftLower hTexts
    refine ⟨nameSpan, name, texts, rfl, hArgs, ?_⟩
    split at hRest
    · next hFunction =>
      obtain ⟨s₂, hLabels, hPure⟩ := of_run_remark_bind hRest
      obtain ⟨rfl, rfl⟩ := of_run_pure hPure
      exact ⟨by rw [callStmt, if_pos hFunction], hLabels⟩
    · next hFunction =>
      obtain ⟨u, s₂, hRemark, hPure⟩ := exists_of_run_bind hRest
      obtain ⟨rfl, rfl⟩ := of_run_pure hPure
      exact ⟨by rw [callStmt, if_neg hFunction], of_run_remark hRemark⟩
  | _ => cases h

def LoweredBefore (c : Context) (n : Node) (k : Nat) (A : List Stmt) (k₁ : Nat) : Prop :=
  ∀ ns T k', Lowered c ns k₁ T k' → Lowered c (n :: ns) k (A ++ T) k'

theorem LoweredBefore.alone {k₁ : Nat} (h : LoweredBefore c n k A k₁) : Lowered c [n] k A k₁ := by
  have hAlone := h [] [] k₁ .nil
  rwa [List.append_nil] at hAlone

theorem lowered_of_lowerStatements
    (hMember : ∀ n ∈ ns, ∀ s T s', (lowerStatement c n).run s = (.ok T, s') →
      LoweredBefore c n s.labels T s'.labels) {returned : Bool}
    (h : (lowerStatements c returned ns).run s = (.ok T, s')) :
    Lowered c ns s.labels T s'.labels := by
  induction ns generalizing returned s T with
  | nil =>
    rw [lowerStatements] at h
    obtain ⟨rfl, rfl⟩ := of_run_pure h
    exact .nil
  | cons n rest ih =>
    rw [lowerStatements] at h
    dsimp only at h
    split at h
    · cases h
    · obtain ⟨s₁, hLabels, hStmts⟩ := of_run_remark_bind h
      obtain ⟨A, s₂, hFirst, hOthers⟩ := exists_of_run_bind hStmts
      obtain ⟨B, s₃, hRest, hPure⟩ := exists_of_run_bind hOthers
      obtain ⟨rfl, rfl⟩ := of_run_pure hPure
      have hHead := hMember n List.mem_cons_self s₁ A s₂ hFirst
      rw [hLabels] at hHead
      exact hHead rest B _ (ih (fun x hx => hMember x (List.mem_cons_of_mem n hx)) hRest)

theorem loweredBefore_of_lowerStatement (h : (lowerStatement c n).run s = (.ok T, s')) :
    LoweredBefore c n s.labels T s'.labels := by
  induction n using Node.induction generalizing s s' T with
  | absent =>
    obtain ⟨rfl, rfl⟩ := of_run_pure h
    exact fun ns T k' hRest => .skip rfl hRest
  | comment span text =>
    obtain ⟨rfl, rfl⟩ := of_run_pure h
    exact fun ns T k' hRest => .comment hRest
  | block span stmts synthetic ih =>
    rw [lowerStatement] at h
    have hBody := lowered_of_lowerStatements (fun n hn s T s' hRun => ih n hn hRun) h
    exact fun ns T k' hRest => .block hBody hRest
  | call span callee args =>
    rw [lowerStatement] at h
    obtain ⟨nameSpan, name, texts, rfl, hArgs, rfl, hLabels⟩ := of_run_lowerCall h
    exact fun ns T k' hRest => .call hArgs (hLabels ▸ hRest)
  | assign span lhs rhs =>
    rw [lowerStatement] at h
    obtain ⟨dst, s₁, hDst, hRest⟩ := exists_of_run_bind h
    obtain ⟨hLhs, rfl⟩ := of_run_liftLower hDst
    obtain ⟨hRhs, rfl⟩ := of_run_liftLower hRest
    exact fun ns T k' hRest => .assign hLhs hRhs hRest
  | branch span cond thenBody elseBody _ ihThen ihElse =>
    rw [lowerStatement] at h
    obtain ⟨test, s₁, hTest, hRest⟩ := exists_of_run_bind h
    obtain ⟨hCond, rfl⟩ := of_run_liftLower hTest
    obtain ⟨A, s₂, hThen, hElse⟩ := exists_of_run_bind hRest
    have hThenBody := (ihThen hThen).alone
    split at hElse
    · next hAbsent =>
      obtain ⟨rfl, rfl⟩ := of_run_pure hElse
      cases elseBody with
      | absent => exact fun ns T k' hRest => .branch hCond hThenBody hRest
      | _ => cases hAbsent
    · next hPresent =>
      obtain ⟨B, s₃, hElse, hPure⟩ := exists_of_run_bind hElse
      obtain ⟨rfl, rfl⟩ := of_run_pure hPure
      have hElseBody := (ihElse hElse).alone
      exact fun ns T k' hRest =>
        .branchElse (by simpa using hPresent) hCond hThenBody hElseBody hRest
  | loop span cond body _ ihBody =>
    rw [lowerStatement] at h
    obtain ⟨label, s₁, hLabel, hRest⟩ := exists_of_run_bind h
    obtain ⟨rfl, hLabels⟩ := of_run_newLabel hLabel
    obtain ⟨test, s₂, hTest, hRound⟩ := exists_of_run_bind hRest
    obtain ⟨hCond, rfl⟩ := of_run_liftLower hTest
    obtain ⟨A, s₃, hStmts, hPure⟩ := exists_of_run_bind hRound
    obtain ⟨rfl, rfl⟩ := of_run_pure hPure
    have hBody := (ihBody hStmts).alone
    rw [hLabels] at hBody
    exact fun ns T k' hRest => .loop hCond hBody hRest
  | ret span e =>
    rw [lowerStatement] at h
    split at h
    · next hAbsent =>
      obtain ⟨rfl, rfl⟩ := of_run_pure h
      cases e with
      | absent => exact fun ns T k' hRest => .ret hRest
      | _ => cases hAbsent
    · next hPresent =>
      split at h
      · cases (of_run_liftLower h).1
      · next hFunction =>
        obtain ⟨A, s₁, hStmts, hPure⟩ := exists_of_run_bind h
        obtain ⟨hValue, rfl⟩ := of_run_liftLower hStmts
        obtain ⟨rfl, rfl⟩ := of_run_pure hPure
        intro ns T k' hRest
        rw [List.append_assoc]
        exact .retValue (by simpa using hPresent) hFunction hValue hRest
  | globals span names =>
    rw [lowerStatement] at h
    obtain ⟨s₁, hLabels, hPure⟩ := of_run_remark_bind h
    obtain ⟨rfl, rfl⟩ := of_run_pure hPure
    exact fun ns T k' hRest => .skip rfl (hLabels ▸ hRest)
  | empty span =>
    rw [lowerStatement] at h
    obtain ⟨u, s₁, hRemark, hPure⟩ := exists_of_run_bind h
    obtain ⟨rfl, rfl⟩ := of_run_pure hPure
    exact fun ns T k' hRest => .skip rfl (of_run_remark hRemark ▸ hRest)
  | _ => cases h

theorem hasLabel_of_isAction {s : Stmt} (h : isAction s = true) (label : String) :
    s.hasLabel label = false := by
  cases s with
  | setText | setNumber | call => rfl
  | _ => cases h

theorem hasLabel_of_actions (h : ∀ s ∈ A, isAction s = true) (label : String) :
    hasLabel label A = false := by
  induction A with
  | nil => rfl
  | cons s rest ih =>
    rw [hasLabel_cons, hasLabel_of_isAction (h s List.mem_cons_self),
      ih fun x hx => h x (List.mem_cons_of_mem s hx)]
    rfl

theorem hasLabel_of_lowerAssign {scope : String} {dst : Place} (h : lowerAssign scope dst n = .ok A)
    (label : String) : hasLabel label A = false :=
  hasLabel_of_actions (isAction_of_lowerAssign h) label

theorem isAction_callStmt (table : ScopeTable) (name : String) (texts : List (List Fragment)) :
    isAction (callStmt table name texts) = true := by
  unfold callStmt
  split <;> rfl

theorem Lowered.le {k' : Nat} (h : Lowered c ns k T k') : k ≤ k' := by
  induction h <;> omega

theorem labelName_injective {m n : Nat} (h : labelName m = labelName n) : m = n :=
  Number.append_natText_injective h

theorem labelName_ne_endOfFile (k : Nat) : labelName k ≠ endOfFile := by
  intro h
  have hHead := congrArg (fun s : String => s.toList.head?) h
  simp [labelName, endOfFile] at hHead

theorem exists_run_of_lower {settings : Settings} {table : ScopeTable} {root : Node} {p : Program}
    (h : (lower settings table root).1 = .ok p) :
    ∃ s, (lowerItems { settings := settings, table := table } (ScopeTable.itemsOf root)).run {} =
      (.ok p, s) := by
  have hRoot : ((lowerRoot { settings := settings, table := table } root).run {}).1 = .ok p := h
  have hItems : ((lowerItems { settings := settings, table := table }
      (ScopeTable.itemsOf root)).run {}).1 = .ok p := by
    cases root with
    | absent | block => exact hRoot
    | _ => cases hRoot
  exact ⟨_, Prod.ext hItems rfl⟩

end BatchCompiler.Lowering
