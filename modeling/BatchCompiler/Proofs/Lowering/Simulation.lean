import BatchCompiler.Proofs.Lowering.Labels
import BatchCompiler.Proofs.Meaning.Rounds

/-!
# Lowering keeps the meaning of statements

The lowered code runs as the statements do. A loop takes a step for every test, so code that is
still running after as many steps as the loops of the source may make rounds never shows an end that
the source does not have.
-/

namespace BatchCompiler.Lowering

open Target Meaning

variable {I : Interpretation} {args : Arguments} {p : Program}

variable {j bound : Nat} {s s' : Config} {w : World} {r : Result} {next A T : List Stmt}
  {test : Comparison}

def ReachesIn (I : Interpretation) (args : Arguments) (p : Program) (j : Nat) (s s' : Config) :
    Prop :=
  ∀ m, run I args p (m + j) s = run I args p m s'

theorem ReachesIn.refl (s : Config) : ReachesIn I args p 0 s s :=
  fun _ => rfl

theorem ReachesIn.trans {i : Nat} {s₁ s₂ s₃ : Config} (h₁ : ReachesIn I args p i s₁ s₂)
    (h₂ : ReachesIn I args p j s₂ s₃) : ReachesIn I args p (j + i) s₁ s₃ := by
  intro m
  rw [← Nat.add_assoc, h₁, h₂]

theorem ReachesIn.of_step (h : step I args p s = some s') : ReachesIn I args p 1 s s' := by
  intro m
  rw [run, h]

theorem run_mono {n : Nat} (h : run I args p n s = some w) (k : Nat) :
    run I args p (n + k) s = some w := by
  induction n generalizing s with
  | zero => cases h
  | succ n ih =>
    rw [Nat.add_right_comm]
    rw [run] at h ⊢
    cases hStep : step I args p s with
    | none =>
      rw [hStep] at h
      exact h
    | some next =>
      rw [hStep] at h
      exact ih h

def Unfinished (I : Interpretation) (args : Arguments) (p : Program) (bound : Nat) (s : Config) :
    Prop :=
  ∀ n ≤ bound, run I args p n s = none

theorem ReachesIn.unfinished (h : ReachesIn I args p j s s') (h' : Unfinished I args p bound s') :
    Unfinished I args p (bound + j) s := by
  intro n hn
  by_cases hjn : j ≤ n
  · obtain ⟨m, rfl⟩ := Nat.exists_eq_add_of_le hjn
    rw [Nat.add_comm, h]
    exact h' m (by omega)
  · cases hRun : run I args p n s with
    | none => rfl
    | some w =>
      have hLater := run_mono hRun (j - n)
      rw [show n + (j - n) = 0 + j by omega, h] at hLater
      cases hLater

/-- The code does what the source did: it gets to what follows, or stops, or does neither within the
bound. -/
def Tracks (I : Interpretation) (args : Arguments) (p : Program) (bound : Nat) (r : Result)
    (s : Config) (next : List Stmt) : Prop :=
  match r with
  | some (.finished, w) => ∃ j, ReachesIn I args p j s ⟨next, w⟩
  | some (.returned _, w) => ∃ n, run I args p n s = some w
  | none => Unfinished I args p bound s

theorem Tracks.of_reachesIn (hReach : ReachesIn I args p j s s')
    (h : Tracks I args p bound r s' next) : Tracks I args p (bound + j) r s next := by
  rcases r with _ | ⟨_ | v, w⟩
  · exact hReach.unfinished h
  · obtain ⟨i, hi⟩ := h
    exact ⟨i + j, hReach.trans hi⟩
  · obtain ⟨n, hn⟩ := h
    exact ⟨n + j, by rw [hReach, hn]⟩

theorem Tracks.mono {bound' : Nat} (hBound : bound' ≤ bound) (h : Tracks I args p bound r s next) :
    Tracks I args p bound' r s next := by
  rcases r with _ | ⟨_ | v, w⟩
  · exact fun n hn => h n (Nat.le_trans hn hBound)
  · exact h
  · exact h

theorem Tracks.after (hReach : ReachesIn I args p j s s') (h : Tracks I args p bound r s' next) :
    Tracks I args p bound r s next :=
  (h.of_reachesIn hReach).mono (Nat.le_add_right bound j)

theorem Tracks.andThen {f : World → Result} {between : List Stmt}
    (h : Tracks I args p bound r s between)
    (hf : ∀ w, Tracks I args p bound (f w) ⟨between, w⟩ next) :
    Tracks I args p bound (r.andThen f) s next := by
  rcases r with _ | ⟨_ | v, w⟩
  · exact h
  · obtain ⟨j, hj⟩ := h
    exact (hf w).after hj
  · exact h

theorem tracks_iterate {label : String}
    (hLabel : afterLabel? label p = some (.whenTrue test (A ++ [.jump label]) :: next))
    (hEnd : label ≠ endOfFile) {src : World → Bool} {body : World → Result}
    (hTest : ∀ w : World, test.holds I args w.store = src w) {rounds : Nat}
    (hBody : ∀ w, Tracks I args p rounds (body w) ⟨A ++ .jump label :: next, w⟩
      (.jump label :: next)) {tests : Nat} (hTests : tests ≤ rounds) (w : World) :
    Tracks I args p tests (iterate src body tests w)
      ⟨.whenTrue test (A ++ [.jump label]) :: next, w⟩ next := by
  induction tests generalizing w with
  | zero =>
    intro n hn
    obtain rfl : n = 0 := by omega
    rfl
  | succ tests ih =>
    rw [iterate]
    split
    · next hHolds =>
      have hEnter : ReachesIn I args p 1 ⟨.whenTrue test (A ++ [.jump label]) :: next, w⟩
          ⟨A ++ .jump label :: next, w⟩ := by
        apply ReachesIn.of_step
        simp only [step, move, moveBy, hTest, hHolds, if_true, List.append_assoc, List.singleton_append]
      -- After a round the jump leads back to where the loop was entered.
      have hBack : ∀ v, Tracks I args p (tests + 1) (iterate src body tests v)
          ⟨.jump label :: next, v⟩ next := by
        intro v
        refine (ih (by omega) v).of_reachesIn (ReachesIn.of_step ?_)
        simp only [step, move, moveBy, if_neg hEnd, hLabel]
      exact ((hBody w).mono hTests).andThen hBack |>.after hEnter
    · next hFails =>
      refine ⟨1, ReachesIn.of_step ?_⟩
      simp only [step, move, moveBy, hTest, hFails]
      rfl

/-- The code stands in the program with `next` after it: a jump to one of its labels resumes there
and goes on with `next`. -/
def Placed (p : Program) (code next : List Stmt) : Prop :=
  ∀ label rest, afterLabel? label code = some rest → afterLabel? label p = some (rest ++ next)

theorem Placed.left (h : Placed p (A ++ T) next) : Placed p A (T ++ next) := by
  intro label rest hRest
  rw [← List.append_assoc]
  apply h
  rw [afterLabel?_append, hRest]

theorem Placed.right (h : Placed p (A ++ T) next)
    (hLabels : ∀ label, hasLabel label T = true → hasLabel label A = false) : Placed p T next := by
  intro label rest hRest
  apply h
  have hNone : afterLabel? label A = none := by
    simpa [hasLabel] using hLabels label (hasLabel_of_afterLabel? hRest)
  rw [afterLabel?_append, hNone, hRest]

theorem Placed.whenTrue (h : Placed p [.whenTrue test A] next) : Placed p A next := by
  intro label rest hRest
  apply h
  simp only [afterLabel?, Stmt.afterLabel?, hRest, List.append_nil]

theorem Placed.thenBody {B : List Stmt} (h : Placed p [.choose test A B] next) :
    Placed p A next := by
  intro label rest hRest
  apply h
  simp only [afterLabel?, Stmt.afterLabel?, hRest, List.append_nil]

theorem Placed.elseBody {B : List Stmt} (h : Placed p [.choose test A B] next)
    (hLabels : ∀ label, hasLabel label B = true → hasLabel label A = false) : Placed p B next := by
  intro label rest hRest
  apply h
  have hNone : afterLabel? label A = none := by
    simpa [hasLabel] using hLabels label (hasLabel_of_afterLabel? hRest)
  simp only [afterLabel?, Stmt.afterLabel?, hNone, hRest, List.append_nil]

theorem Lowered.exists_number {c : Context} {ns : List Node} {k k' : Nat} (h : Lowered c ns k T k')
    {label : String} (hLabel : hasLabel label T = true) :
    ∃ i, k ≤ i ∧ i < k' ∧ labelName i = label := by
  rwa [hasLabel_iff, h.looped.labelsOf_eq, mem_loopLabels] at hLabel

theorem Lowered.hasLabel_eq_false {c : Context} {ms ns : List Node} {k k₁ k₂ k' : Nat}
    (hA : Lowered c ms k A k₁) (hT : Lowered c ns k₂ T k') (hk : k₁ ≤ k₂) (label : String)
    (hLabel : hasLabel label T = true) : hasLabel label A = false := by
  rw [Bool.eq_false_iff]
  intro hOther
  obtain ⟨i, hLe, -, hi⟩ := hT.exists_number hLabel
  obtain ⟨j, -, hLt, hj⟩ := hA.exists_number hOther
  have hij : i = j := labelName_injective (hi.trans hj.symm)
  omega

variable (I args p) in
theorem reachesIn_actions (hA : ∀ s ∈ A, isAction s = true) (next : List Stmt) (w : World) :
    ∃ j, ReachesIn I args p j ⟨A ++ next, w⟩ ⟨next, performAll I args A w⟩ := by
  induction A generalizing w with
  | nil => exact ⟨0, ReachesIn.refl _⟩
  | cons s rest ih =>
    have hStep : step I args p ⟨s :: rest ++ next, w⟩ =
        some ⟨rest ++ next, s.perform I args w⟩ := by
      have hs := hA s List.mem_cons_self
      cases s with
      | setText | setNumber | call => rfl
      | _ => cases hs
    obtain ⟨j, hj⟩ := ih (fun x hx => hA x (List.mem_cons_of_mem s hx)) (s.perform I args w)
    exact ⟨j + 1, (ReachesIn.of_step hStep).trans hj⟩

theorem exec_of_isSkipped {n : Node} (hn : isSkipped n = true) (rounds : Nat) (w : World) :
    exec I rounds n w = some (.finished, w) := by
  cases n with
  | absent | empty | globals => rfl
  | _ => cases hn

theorem perform_callStmt {table : ScopeTable} (hI : Standard table I) {name : String}
    {texts : List (List Fragment)} {values : List String}
    (h : texts.map (textOf args w.store) = values) :
    (callStmt table name texts).perform I args w = w.call I (I.event name values) := by
  rw [hI.event, callStmt, callEvent]
  split
  · simp [Stmt.perform, Fragment.value, textOf, h]
  · simp [Stmt.perform, Fragment.value, h]

theorem tracks_of_lowered {c : Context} (hI : Standard c.table I) (hFunction : c.function = "")
    {ns : List Node} {k k' : Nat} (h : Lowered c ns k T k') (hPlaced : Placed p T next)
    (rounds : Nat) (w : World) :
    Tracks I args p rounds (execAll I rounds ns w) ⟨T ++ next, w⟩ next := by
  induction h generalizing next w with
  | nil =>
    rw [execAll]
    exact ⟨0, ReachesIn.refl _⟩
  | skip hn h ih =>
    rw [execAll, exec_of_isSkipped hn]
    exact ih hPlaced w
  | @comment span text ns T k k' h ih =>
    have hExec : exec I rounds (.comment span text) w = some (.finished, w) := rfl
    have hStep : step I args p ⟨.comment text :: T ++ next, w⟩ = some ⟨T ++ next, w⟩ := rfl
    rw [execAll, hExec]
    exact (ih (Placed.right (A := [.comment text]) hPlaced fun _ _ => rfl) w).after
      (ReachesIn.of_step hStep)
  | block hBody h ihBody ih =>
    rw [execAll, exec, List.append_assoc]
    refine (ihBody hPlaced.left w).andThen fun v => ?_
    exact ih (hPlaced.right (hBody.hasLabel_eq_false h (Nat.le_refl _))) v
  | @call span nameSpan name as ns texts T k k' hArgs h ih =>
    have hAction : ∀ s ∈ [callStmt c.table name texts], isAction s = true := by
      intro s hs
      rw [List.mem_singleton.mp hs]
      exact isAction_callStmt _ _ _
    obtain ⟨j, hj⟩ := reachesIn_actions I args p hAction (T ++ next) w
    rw [performAll, List.foldl_cons, List.foldl_nil,
      perform_callStmt hI (textOf_of_mapM_lowerText I args w.store hArgs)] at hj
    rw [execAll, exec]
    have hRest : Placed p T next := Placed.right (A := [callStmt c.table name texts]) hPlaced
      fun label _ => hasLabel_of_actions hAction label
    exact (ih hRest _).after hj
  | @assign span lhs rhs ns dst A T k k' hLhs hRhs h ih =>
    obtain ⟨j, hj⟩ :=
      reachesIn_actions I args p (isAction_of_lowerAssign hRhs) (T ++ next) w
    rw [performAll_of_lowerAssign hI.plus args
      (fun σ => location_of_lowerPlace I args σ hLhs) hRhs w] at hj
    rw [execAll, exec, List.append_assoc]
    have hAssign : assign I w.store lhs rhs = assignInTurn I (fun τ => place I τ lhs) w.store rhs := by
      rw [assign, hI.lists]
    rw [hAssign]
    exact (ih (hPlaced.right fun label _ => hasLabel_of_lowerAssign hRhs label) _).after hj
  | @branch span cond thenBody ns test A T k k₁ k' hCond hThen h ihThen ih =>
    have hSplit : Placed p ([.whenTrue test A] ++ T) next := hPlaced
    have hRest : Placed p T next := hSplit.right fun label hLabel => by
      simpa using hThen.hasLabel_eq_false h (Nat.le_refl _) label hLabel
    have hTest := holds_of_lowerCondition hI args w.store hCond
    rw [execAll, exec]
    split
    · next hHolds =>
      have hStep : step I args p ⟨.whenTrue test A :: T ++ next, w⟩ =
          some ⟨A ++ (T ++ next), w⟩ := by
        simp only [List.cons_append, step, move, moveBy, hTest, hHolds, if_true]
      have hBody := ihThen hSplit.left.whenTrue w
      rw [execAll_singleton] at hBody
      exact (hBody.andThen fun v => ih hRest v).after (ReachesIn.of_step hStep)
    · next hFails =>
      have hStep : step I args p ⟨.whenTrue test A :: T ++ next, w⟩ = some ⟨T ++ next, w⟩ := by
        simp only [List.cons_append, step, move, moveBy, hTest, hFails]
        rfl
      rw [exec_of_isSkipped rfl]
      exact (ih hRest w).after (ReachesIn.of_step hStep)
  | @branchElse span cond thenBody elseBody ns test A B T k k₁ k₂ k' hElseBody hCond hThen hElse h
      ihThen ihElse ih =>
    have hSplit : Placed p ([.choose test A B] ++ T) next := hPlaced
    have hRest : Placed p T next := hSplit.right fun label hLabel => by
      have hA := hThen.hasLabel_eq_false h hElse.le label hLabel
      have hB := hElse.hasLabel_eq_false h (Nat.le_refl _) label hLabel
      simp [hA, hB]
    have hTest := holds_of_lowerCondition hI args w.store hCond
    have hStep : step I args p ⟨.choose test A B :: T ++ next, w⟩ =
        some ⟨if holds I w.store cond then A ++ (T ++ next) else B ++ (T ++ next), w⟩ := by
      simp only [List.cons_append, step, move, moveBy, hTest]
    rw [execAll, exec]
    split
    · next hHolds =>
      rw [if_pos hHolds] at hStep
      have hBody := ihThen hSplit.left.thenBody w
      rw [execAll_singleton] at hBody
      exact (hBody.andThen fun v => ih hRest v).after (ReachesIn.of_step hStep)
    · next hFails =>
      rw [if_neg hFails] at hStep
      have hBody := ihElse
        (hSplit.left.elseBody (hThen.hasLabel_eq_false hElse (Nat.le_refl _))) w
      rw [execAll_singleton] at hBody
      exact (hBody.andThen fun v => ih hRest v).after (ReachesIn.of_step hStep)
  | @loop span cond body ns test A T k k₁ k' hCond hBody h ihBody ih =>
    have hSplit : Placed p ([.label (labelName k)] ++
        ([.whenTrue test (A ++ [.jump (labelName k)])] ++ T)) next := hPlaced
    have hInner : Placed p ([.whenTrue test (A ++ [.jump (labelName k)])] ++ T) next := by
      refine hSplit.right fun label hLabel => ?_
      have hLe := hBody.le
      simp only [List.singleton_append, hasLabel_cons, Stmt.hasLabel_whenTrue, hasLabel_append,
        Stmt.hasLabel_jump, hasLabel_nil, Bool.or_false, Bool.or_eq_true] at hLabel
      simp only [hasLabel_cons, Stmt.hasLabel_label, hasLabel_nil, Bool.or_false,
        decide_eq_false_iff_not]
      rintro rfl
      rcases hLabel with hLabel | hLabel
      · obtain ⟨i, hLower, -, hi⟩ := hBody.exists_number hLabel
        have hik := labelName_injective hi
        omega
      · obtain ⟨i, hLower, -, hi⟩ := h.exists_number hLabel
        have hik := labelName_injective hi
        omega
    have hRest : Placed p T next := hInner.right fun label hLabel => by
      simpa using hBody.hasLabel_eq_false h (Nat.le_refl _) label hLabel
    have hLabel : afterLabel? (labelName k) p =
        some (.whenTrue test (A ++ [.jump (labelName k)]) :: (T ++ next)) := by
      refine hPlaced _ (.whenTrue test (A ++ [.jump (labelName k)]) :: T) ?_
      simp [afterLabel?, Stmt.afterLabel?]
    have hStep : step I args p ⟨.label (labelName k) ::
        .whenTrue test (A ++ [.jump (labelName k)]) :: T ++ next, w⟩ =
        some ⟨.whenTrue test (A ++ [.jump (labelName k)]) :: (T ++ next), w⟩ := rfl
    have hRound (v : World) : Tracks I args p rounds (exec I rounds body v)
        ⟨A ++ .jump (labelName k) :: (T ++ next), v⟩ (.jump (labelName k) :: (T ++ next)) := by
      have hBodyRun := ihBody hInner.left.whenTrue.left v
      rwa [execAll_singleton] at hBodyRun
    rw [execAll, exec]
    have hLoop := tracks_iterate hLabel (labelName_ne_endOfFile k)
      (fun v => holds_of_lowerCondition hI args v.store hCond) hRound (Nat.le_refl rounds) w
    exact (hLoop.andThen fun v => ih hRest v).after (ReachesIn.of_step hStep)
  | ret h ih =>
    rw [execAll, exec]
    exact ⟨1, rfl⟩
  | retValue he hValue => exact absurd hFunction hValue

theorem halts_unique {v v' : World} (h : Halts I args p w v) (h' : Halts I args p w v') :
    v = v' := by
  obtain ⟨m, hm⟩ := h
  obtain ⟨n, hn⟩ := h'
  have hLater := run_mono hm n
  rw [Nat.add_comm, run_mono hn m] at hLater
  exact (Option.some.inj hLater).symm

theorem exists_lowered_of_lower {settings : Settings} {table : ScopeTable} {root : Node}
    {remarks : List Remark} (h : lower settings table root = (.ok p, remarks))
    (hFunctions : ∀ n ∈ ScopeTable.itemsOf root, n.isFunc = false) :
    ∃ T k, p = setup ++ T ∧
      Lowered { settings := settings, table := table } (ScopeTable.itemsOf root) 0 T k := by
  obtain ⟨s, hItems⟩ := exists_run_of_lower (congrArg Prod.fst h)
  have hNone : (ScopeTable.itemsOf root).filter Node.isFunc = [] := by
    rw [List.filter_eq_nil_iff]
    intro n hn
    simp [hFunctions n hn]
  have hAll : ((ScopeTable.itemsOf root).filter fun n => !n.isFunc) = ScopeTable.itemsOf root := by
    rw [List.filter_eq_self]
    intro n hn
    simp [hFunctions n hn]
  rw [lowerItems, hNone, hAll] at hItems
  dsimp only at hItems
  split at hItems
  · cases hItems
  · obtain ⟨T, s₁, hStmts, hRest⟩ := exists_of_run_bind hItems
    obtain ⟨F, s₂, hFuncs, hPure⟩ := exists_of_run_bind hRest
    obtain ⟨rfl, rfl⟩ := of_run_pure hFuncs
    obtain ⟨rfl, rfl⟩ := of_run_pure hPure
    have hLowered := lowered_of_lowerStatements
      (fun n _ s T s' => loweredBefore_of_lowerStatement) hStmts
    exact ⟨T, _, List.append_nil _, hLowered⟩

/-- Statements without function declarations and the program they are lowered to both end or both do
not, and end in the same world: with the same store after the same calls. -/
theorem lower_sameMeaning {settings : Settings} {table : ScopeTable} {root : Node}
    {remarks : List Remark} (h : lower settings table root = (.ok p, remarks))
    (hFunctions : ∀ n ∈ ScopeTable.itemsOf root, n.isFunc = false) (hI : Standard table I)
    (args : Arguments) (w : World) :
    ((∃ r, Ends I (ScopeTable.itemsOf root) w r) ↔ ∃ v, Halts I args p w v) ∧
    ∀ exit v v', Ends I (ScopeTable.itemsOf root) w (exit, v) → Halts I args p w v' → v' = v := by
  obtain ⟨T, k, rfl, hLowered⟩ := exists_lowered_of_lower h hFunctions
  have hPlaced : Placed (setup ++ T) T [] := by
    intro label rest hRest
    rw [afterLabel?_append, List.append_nil]
    exact hRest
  have hStart : ReachesIn I args (setup ++ T) 3 ⟨setup ++ T, w⟩ ⟨T ++ [], w⟩ := by
    rw [List.append_nil]
    exact fun _ => rfl
  have hTracks (rounds : Nat) :
      Tracks I args (setup ++ T) rounds (execAll I rounds (ScopeTable.itemsOf root) w)
        ⟨setup ++ T, w⟩ [] :=
    (tracks_of_lowered hI rfl hLowered hPlaced rounds w).after hStart
  have hEnd : ∀ exit v, Ends I (ScopeTable.itemsOf root) w (exit, v) →
      Halts I args (setup ++ T) w v := by
    rintro exit v ⟨rounds, hRounds⟩
    have hRun := hTracks rounds
    rw [hRounds] at hRun
    cases exit with
    | finished =>
      obtain ⟨j, hj⟩ := hRun
      exact ⟨1 + j, by rw [hj]; rfl⟩
    | returned value => exact hRun
  refine ⟨⟨?_, ?_⟩, ?_⟩
  · rintro ⟨⟨exit, v⟩, hEnds⟩
    exact ⟨v, hEnd exit v hEnds⟩
  · rintro ⟨v, n, hn⟩
    cases hExec : execAll I n (ScopeTable.itemsOf root) w with
    | none =>
      have hRun := hTracks n
      rw [hExec] at hRun
      rw [hRun n (Nat.le_refl n)] at hn
      cases hn
    | some r => exact ⟨r, n, hExec⟩
  · intro exit v v' hEnds hHalts
    exact halts_unique hHalts (hEnd exit v hEnds)

def listTree : Node :=
  .block {} [
    .assign {} (.ident {} "l") (.list {} [.number {} 1, .ident {} "x"]),
    .loop {} (.binary {} .ne (.subscript {} (.ident {} "l") (.number {} 0)) (.ident {} "x"))
      (.block {} [
        .call {} (.ident {} "echo") [.ident {} "x"],
        .branch {} (.ident {} "x") (.ret {} .absent) .absent] false)] true

def firstOperand : Interpretation where
  unary _ s := s
  binary _ l _ := l
  compare op l r := decide (l = r) != decide (op = .ne)
  truth s := decide (s = "1")
  event := callEvent {}
  effect _ σ := σ
  lists := .inTurn

theorem lower_sameMeaning_listTree :
    ∃ p remarks, lower {} {} listTree = (.ok p, remarks) ∧
      (∀ n ∈ ScopeTable.itemsOf listTree, n.isFunc = false) ∧ Standard {} firstOperand ∧
      ∀ args w,
        ((∃ r, Ends firstOperand (ScopeTable.itemsOf listTree) w r) ↔
          ∃ v, Halts firstOperand args p w v) ∧
        ∀ exit v v', Ends firstOperand (ScopeTable.itemsOf listTree) w (exit, v) →
          Halts firstOperand args p w v' → v' = v := by
  have hLower : ∃ p remarks, lower {} {} listTree = (.ok p, remarks) := ⟨_, _, rfl⟩
  have hFunctions : ∀ n ∈ ScopeTable.itemsOf listTree, n.isFunc = false := by
    simp [listTree, ScopeTable.itemsOf, Node.isFunc]
  have hI : Standard {} firstOperand :=
    ⟨fun _ => rfl, fun _ _ => by simp [firstOperand], fun _ => rfl, rfl, fun _ _ => rfl⟩
  obtain ⟨p, remarks, h⟩ := hLower
  exact ⟨p, remarks, h, hFunctions, hI, lower_sameMeaning h hFunctions hI⟩

end BatchCompiler.Lowering
