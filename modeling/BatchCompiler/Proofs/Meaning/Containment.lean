import BatchCompiler.Proofs.Meaning.Spilling

/-!
# Spilled else parts are seen

In a program whose jumps keep to the else parts they are in, a run that skips an else part does not
get to it before it has tested something. What spills over into the else part is therefore seen as
soon as it shows anything, and the script does what the program does exactly when nothing is seen.
-/

namespace BatchCompiler.Target

open Meaning

/-- A label inside an else part is jumped to from there only, an else part itself only returns, and a
label is followed by a test or by the same code under both rules for jumps. -/
structure Contained (p : Program) : Prop where
  returns : ∀ x ∈ parts 0 p, ∀ body lo hi, ElsePart x body lo hi →
    ∀ label, Stmt.jump label ∈ body → label = endOfFile
  closed : ∀ x ∈ parts 0 p, ∀ body lo hi, ElsePart x body lo hi →
    ∀ y ∈ parts 0 p, ∀ label, y.stmt = .jump label → hasLabel label body = true →
      lo ≤ y.row ∧ y.row < hi
  entered : ∀ label code code', after? false label 0 p = some code →
    after? true label 0 p = some code' →
    code' = code ∨ ∃ row c body rest, code = ⟨row, .whenTrue c body⟩ :: rest

section

variable {p : Program}

variable {spill : Bool} {code next code' rest : List Numbered} {x : Numbered} {row : Nat}
  {label : String}

theorem of_moveNumbered_go (h : moveNumbered spill p code = .go next) :
    (∃ x, code = x :: next) ∨
    ∃ row label rest, code = ⟨row, .jump label⟩ :: rest ∧ label ≠ endOfFile ∧
      after? spill label 0 p = some next := by
  rcases code with _ | ⟨⟨row, s⟩, rest⟩
  · cases h
  cases s with
  | jump label =>
    rcases moveNumbered_jump_cases spill p row label rest with hStop | ⟨after, hGo, hEnd, hFound⟩
    · cases hStop.symm.trans h
    · obtain rfl := Turn.go.inj (hGo.symm.trans h)
      exact .inr ⟨row, label, rest, rfl, hEnd, hFound⟩
  | absent | comment | label =>
    cases h
    exact .inl ⟨_, rfl⟩
  | _ => cases h

theorem of_moveNumbered_act (h : moveNumbered spill p code = .act x next) : code = x :: next := by
  rcases code with _ | ⟨⟨row, s⟩, rest⟩
  · cases h
  cases s with
  | jump label =>
    rcases moveNumbered_jump_cases spill p row label rest with hStop | ⟨after, hGo, -⟩
    · cases hStop.symm.trans h
    · cases hGo.symm.trans h
  | raw | setText | setNumber | call =>
    cases h
    rfl
  | _ => cases h

theorem of_moveNumbered_test {yes no : List Numbered}
    (h : moveNumbered spill p code = .test x yes no) : ∃ rest, code = x :: rest := by
  rcases code with _ | ⟨⟨row, s⟩, rest⟩
  · cases h
  cases s with
  | jump label =>
    rcases moveNumbered_jump_cases spill p row label rest with hStop | ⟨after, hGo, -⟩
    · cases hStop.symm.trans h
    · cases hGo.symm.trans h
  | whenTrue | choose =>
    cases h
    exact ⟨_, rfl⟩
  | _ => cases h

theorem Contained.outside_of_opens (hp : Contained p) (hx : x ∈ parts 0 p) {body : List Stmt}
    {lo hi : Nat} (hElse : ElsePart x body lo hi) {d : Deed Numbered Numbered}
    (h : Opens (moveNumbered false p) code d) (hCode : Outside lo hi code)
    (hParts : code ⊆ parts 0 p) {y : Numbered} (hy : d = .act y ∨ d = .test y) :
    y.row < lo ∨ hi ≤ y.row := by
  induction h with
  | go hGo _ ih =>
    rcases of_moveNumbered_go hGo with ⟨z, rfl⟩ | ⟨row, label, rest, rfl, hEnd, hFound⟩
    · exact ih (List.forall_mem_cons.mp hCode).2 (List.cons_subset.mp hParts).2 hy
    · have hLabel : hasLabel label body = false := by
        by_contra hInside
        obtain ⟨hStart, hStop⟩ := hp.closed x hx body lo hi hElse _
          (List.cons_subset.mp hParts).1 label rfl (by simpa using hInside)
        have hJump := (List.forall_mem_cons.mp hCode).1
        omega
      exact ih (hElse.outside_of_after? hLabel p hx hFound) (after?_subset p hFound) hy
  | act hAct =>
    obtain rfl := of_moveNumbered_act hAct
    obtain rfl : _ = y := by simpa using hy
    exact (List.forall_mem_cons.mp hCode).1
  | test hTest =>
    obtain ⟨rest, rfl⟩ := of_moveNumbered_test hTest
    obtain rfl : _ = y := by simpa using hy
    exact (List.forall_mem_cons.mp hCode).1

/-- A body that only returns shows nothing, or returns before it shows anything, or starts with one
of its own deeds. -/
theorem exists_opens_of_returns {body : List Stmt}
    (h : ∀ label, Stmt.jump label ∈ body → label = endOfFile) (spill : Bool) (row : Nat)
    (code : List Numbered) :
    (∀ s ∈ body, s.silent = true) ∨ returnsAtOnce body = true ∨
    ∃ x ∈ numbered row body, Opens (moveNumbered spill p) (numbered row body ++ code) (.act x) ∨
      Opens (moveNumbered spill p) (numbered row body ++ code) (.test x) := by
  induction body generalizing row with
  | nil => exact .inl nofun
  | cons s rest ih =>
    have hRest := ih (fun label hLabel => h label (List.mem_cons_of_mem s hLabel)) (row + s.height)
    have hSilent : s.silent = true → returnsAtOnce (s :: rest) = returnsAtOnce rest →
        (∀ t ∈ s :: rest, t.silent = true) ∨ returnsAtOnce (s :: rest) = true ∨
        ∃ x ∈ numbered row (s :: rest),
          Opens (moveNumbered spill p) (numbered row (s :: rest) ++ code) (.act x) ∨
          Opens (moveNumbered spill p) (numbered row (s :: rest) ++ code) (.test x) := by
      intro hs hReturns
      have hGo : moveNumbered spill p (numbered row (s :: rest) ++ code) =
          .go (numbered (row + s.height) rest ++ code) := moveNumbered_silent hs row _
      rcases hRest with hRest | hRest | ⟨x, hx, hOpens⟩
      · exact .inl (List.forall_mem_cons.mpr ⟨hs, hRest⟩)
      · exact .inr (.inl (hReturns.trans hRest))
      · exact .inr (.inr ⟨x, List.mem_cons_of_mem _ hx, hOpens.imp (.go hGo) (.go hGo)⟩)
    cases s with
    | absent | comment | label => exact hSilent rfl rfl
    | jump label =>
      obtain rfl := h label List.mem_cons_self
      exact .inr (.inl rfl)
    | whenTrue | choose => exact .inr (.inr ⟨_, List.mem_cons_self, .inr (.test rfl)⟩)
    | raw | setText | setNumber | call =>
      exact .inr (.inr ⟨_, List.mem_cons_self, .inl (.act rfl)⟩)

mutual

theorem Stmt.sameDeeds_of_falls {row : Nat} {code code' : List Numbered} : (s : Stmt) →
    s.falls = true →
    SameRuns p (⟨row, s⟩ :: code)
      (⟨row, s⟩ :: code') →
    SameRuns p code code'
  | .whenTrue _ _, _, h => h.of_test rfl rfl false
  | .choose _ thenBody elseBody, hFalls, h => by
    rw [Stmt.falls, Bool.or_eq_true] at hFalls
    rcases hFalls with hFalls | hFalls
    · exact sameDeeds_of_falls thenBody hFalls (h.of_test rfl rfl true)
    · exact sameDeeds_of_falls elseBody hFalls (h.of_test rfl rfl false)
  | .jump _, hFalls, _ => nomatch hFalls
  | .absent, _, h | .comment _, _, h | .label _, _, h => ((h.of_go rfl).symm.of_go rfl).symm
  | .raw _, _, h | .setText .., _, h | .setNumber .., _, h | .call .., _, h => h.of_act rfl rfl

theorem sameDeeds_of_falls {row : Nat} {code code' : List Numbered} : (body : List Stmt) →
    falls body = true →
    SameRuns p (numbered row body ++ code)
      (numbered row body ++ code') →
    SameRuns p code code'
  | [], _, h => h
  | s :: rest, hFalls, h => by
    rw [falls, Bool.and_eq_true] at hFalls
    exact sameDeeds_of_falls rest hFalls.2 (Stmt.sameDeeds_of_falls s hFalls.1 h)

end

theorem Contained.unseen_of_spilled (hp : Contained p) (h : Spilled p code code')
    (hSame : SameRuns p code code') :
    Unseen p code code' := by
  induction h with
  | nil => exact .nil
  | @cons x _ _ _ ih => exact .cons fun hFalls => ih (x.stmt.sameDeeds_of_falls hFalls hSame)
  | @spill x body lo hi code code' hx hElse hRows hParts _ ih =>
    have hReturns := hp.returns x hx body lo hi hElse
    rcases exists_opens_of_returns (p := p) hReturns true lo code' with
      hSilent | hReturn | ⟨y, hy, hOpens⟩
    · have hRest := hSame.symm.of_quietly (quietly_silent hSilent lo code')
      exact .silent hSilent (ih hRest.symm)
    · exact .returns hReturn (hSame.rests (rests_of_returnsAtOnce hReturn lo code'))
    · have hDeed : ∃ d, Opens (moveNumbered true p) (numbered lo body ++ code') d ∧
          (d = .act y ∨ d = .test y) := by
        rcases hOpens with hOpens | hOpens
        · exact ⟨_, hOpens, .inl rfl⟩
        · exact ⟨_, hOpens, .inr rfl⟩
      obtain ⟨d, hOpens, hd⟩ := hDeed
      have hRow := hp.outside_of_opens hx hElse (hSame.opens hOpens) (outside_of_le hRows) hParts hd
      have hStart := le_of_mem_numbered hy
      have hStop := (within_of_mem_parts _ (numbered_subset_parts _ _ hy)).lt
      rw [← hElse.hi_eq] at hStop
      omega

theorem of_leads_jump (h : Leads (moveNumbered spill p) (⟨row, .jump label⟩ :: rest) next) :
    label ≠ endOfFile ∧ after? spill label 0 p = some next := by
  rcases moveNumbered_jump_cases spill p row label rest with hStop | ⟨after, hGo, hEnd, hFound⟩
  · cases h with
    | go h | act h | yes h | no h => cases hStop.symm.trans h
  · refine ⟨hEnd, ?_⟩
    cases h with
    | go h => rw [hFound, Turn.go.inj (hGo.symm.trans h)]
    | act h | yes h | no h => cases hGo.symm.trans h

theorem Contained.unseen_of_jumps (hp : Contained p) {rest' : List Numbered}
    (hEnd : label ≠ endOfFile) (hFound : after? false label 0 p = some code)
    (hFound' : after? true label 0 p = some code')
    (hSame : SameRuns p (⟨row, .jump label⟩ :: rest) (⟨row, .jump label⟩ :: rest')) :
    Unseen p code code' ∧
      SameRuns p code code' := by
  have hLeft := hSame.of_go (moveNumbered_jump hEnd hFound row rest)
  have hBoth := (hLeft.symm.of_go (moveNumbered_jump hEnd hFound' row rest')).symm
  obtain ⟨found, hTrue, hSpilled⟩ := exists_after?_true hFound
  obtain rfl := Option.some.inj (hTrue.symm.trans hFound')
  exact ⟨hp.unseen_of_spilled hSpilled hBoth, hBoth⟩

theorem Contained.exists_of_leads (hp : Contained p) (h : Unseen p code code')
    (hSame : SameRuns p code code')
    (hLeads : Leads (moveNumbered false p) code next) :
    ∃ next', Unseen p next next' ∧
      SameRuns p next next' := by
  induction h with
  | nil =>
    cases hLeads with
    | go h | act h | yes h | no h => cases h
  | silent hBody _ ih =>
    exact ih (hSame.symm.of_quietly (quietly_silent hBody _ _)).symm hLeads
  | returns hBody hRests =>
    obtain ⟨hGo, hNext⟩ := hRests.of_leads hLeads
    exact ⟨_, .returns hBody hNext, hSame.of_go hGo⟩
  | @cons x rest rest' hRest _ =>
    obtain ⟨row, s⟩ := x
    cases s with
    | jump label =>
      obtain ⟨hEnd, hFound⟩ := of_leads_jump hLeads
      obtain ⟨next', hFound', _⟩ := exists_after?_true hFound
      exact ⟨next', hp.unseen_of_jumps hEnd hFound hFound' hSame⟩
    | whenTrue c body =>
      have hUnseen := hRest rfl
      cases hLeads with
      | go h | act h => cases h
      | yes h =>
        cases h
        exact ⟨_, unseen_append (fun _ => hUnseen) _, hSame.of_test rfl rfl true⟩
      | no h =>
        cases h
        exact ⟨_, hUnseen, hSame.of_test rfl rfl false⟩
    | choose c thenBody elseBody =>
      cases hLeads with
      | go h | act h => cases h
      | yes h =>
        cases h
        refine ⟨_, unseen_append (fun hFalls => hRest ?_) _, hSame.of_test rfl rfl true⟩
        rw [Stmt.falls, hFalls, Bool.true_or]
      | no h =>
        cases h
        refine ⟨_, unseen_append (fun hFalls => hRest ?_) _, hSame.of_test rfl rfl false⟩
        rw [Stmt.falls, hFalls, Bool.or_true]
    | absent | comment | label =>
      cases hLeads with
      | go h =>
        cases h
        exact ⟨rest', hRest rfl, ((hSame.of_go rfl).symm.of_go rfl).symm⟩
      | act h | yes h | no h => cases h
    | raw | setText | setNumber | call =>
      cases hLeads with
      | act h =>
        cases h
        exact ⟨rest', hRest rfl, hSame.of_act rfl rfl⟩
      | go h | yes h | no h => cases h

theorem Contained.exists_of_reaches (hp : Contained p) {start start' : List Numbered}
    (h : Unseen p start start')
    (hSame : SameRuns p start start')
    (hReach : Reaches (moveNumbered false p) start code) :
    ∃ code', Unseen p code code' ∧
      SameRuns p code code' := by
  induction hReach with
  | refl => exact ⟨start', h, hSame⟩
  | tail _ hLeads ih =>
    obtain ⟨code', hUnseen, hSameCode⟩ := ih
    exact hp.exists_of_leads hUnseen hSameCode hLeads

theorem Contained.unseen_of_unseen_jump (hp : Contained p) {state : List Numbered}
    (h : Unseen p (⟨row, .jump label⟩ :: rest) state)
    (hSame : SameRuns p (⟨row, .jump label⟩ :: rest) state) (hEnd : label ≠ endOfFile)
    (hFound : after? false label 0 p = some code) (hFound' : after? true label 0 p = some code') :
    Unseen p code code' := by
  generalize hJump : ⟨row, .jump label⟩ :: rest = from_ at h hSame
  induction h with
  | nil => cases hJump
  | silent hBody _ ih =>
    subst hJump
    exact ih rfl (hSame.symm.of_quietly (quietly_silent hBody _ _)).symm
  | cons _ _ =>
    cases hJump
    exact (hp.unseen_of_jumps hEnd hFound hFound' hSame).1
  | returns _ hRests =>
    subst hJump
    -- The second machine has returned, so the jump leads to no test.
    have hNext := (hRests.of_leads (.go (moveNumbered_jump hEnd hFound row rest))).2
    rcases hp.entered label code code' hFound hFound' with rfl | ⟨row, c, body, after, rfl⟩
    · exact unseen_refl _
    · obtain ⟨k, s, hk, hStop⟩ := hNext
      cases hk with
      | zero => cases hStop
      | succ h _ => cases h

/-- By either rule for jumps the program does the same, exactly when no else part is seen. -/
theorem Contained.sameDeeds_iff (hp : Contained p) {start start' : List Numbered}
    (h : Spilled p start start') :
    SameRuns p start start' ↔
      Unspilled p start start' := by
  constructor
  · intro hSame
    have hEntry := hp.unseen_of_spilled h hSame
    refine ⟨hEntry, fun row label rest code code' hReach hEnd hFound hFound' => ?_⟩
    obtain ⟨state, hUnseen, hSameState⟩ := hp.exists_of_reaches hEntry hSame hReach
    exact hp.unseen_of_unseen_jump hUnseen hSameState hEnd hFound hFound'
  · exact Unspilled.sameDeeds

end

end BatchCompiler.Target
