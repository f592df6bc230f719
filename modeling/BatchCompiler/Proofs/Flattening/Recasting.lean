import BatchCompiler.Proofs.Flattening.Rules
import BatchCompiler.Proofs.Syntax.Recasting

/-!
# Flattening recast trees

Flattening looks at the form of a tree only. If two tables give out temporaries with names that
correspond, a tree and the recast tree are flattened to trees that correspond. What it takes for
tables to do so is a parameter: a relation between them, for each region, that lasts.
-/

namespace BatchCompiler.Syntax.Flattening

/-- A relation between two tables, for the region that is flattened, under which they give out
temporaries with names that correspond and stay related. -/
structure Supply (g : Recast) where
  Alike : Region → ScopeTable → ScopeTable → Prop
  next : ∀ {region t u}, Alike region t u →
    (t.fresh? region temporaryLead = none ∧ u.fresh? region temporaryLead = none) ∨
      ∃ name t' u', t.fresh? region temporaryLead = some (name, t') ∧
        u.fresh? region temporaryLead = some (g.name name, u') ∧ Alike region t' u'

structure Related {g : Recast} (T : Supply g) (s u : State) : Prop where
  region : u.region = s.region
  table : T.Alike s.region s.table u.table
  before : u.before = s.before.map (Node.recast g)

variable {g : Recast} {T : Supply g}

section

variable {α β : Type}

variable {f : α → α} {m m' : Flat α}

/-- Both fail in the same way, or the second gives what `f` makes of what the first gives. -/
inductive Outcome {g : Recast} (T : Supply g) (f : α → α) :
    Except Crash (α × State) → Except Crash (α × State) → Prop where
  | error (why : Crash) : Outcome T f (.error why) (.error why)
  | ok {a : α} {s u : State} (h : Related T s u) : Outcome T f (.ok (a, s)) (.ok (f a, u))

/-- From related states `m'` does what `m` does, and returns what `f` makes of what `m` returns. -/
def Commutes {g : Recast} (T : Supply g) (f : α → α) (m m' : Flat α) : Prop :=
  ∀ s u, Related T s u → Outcome T f (m.run s) (m'.run u)

theorem Commutes.exists_run (h : Commutes T f m m') {s u s' : State} {a : α}
    (hState : Related T s u) (hRun : m.run s = .ok (a, s')) :
    ∃ u', m'.run u = .ok (f a, u') ∧ Related T s' u' := by
  have hOutcome := h s u hState
  rw [hRun] at hOutcome
  generalize m'.run u = y at hOutcome
  cases hOutcome with
  | ok hState' => exact ⟨_, rfl, hState'⟩

theorem commutes_pure (a : α) : Commutes T f (pure a) (pure (f a)) :=
  fun _ _ h => .ok h

theorem commutes_throw (why : Crash) : Commutes T f (throw why) (throw why) :=
  fun _ _ _ => .error why

theorem Commutes.bind {h : β → β} {k k' : α → Flat β} (hm : Commutes T f m m')
    (hk : ∀ a, Commutes T h (k a) (k' (f a))) : Commutes T h (m >>= k) (m' >>= k') := by
  intro s u hState
  rw [StateT.run_bind, StateT.run_bind]
  have hFirst := hm s u hState
  generalize m.run s = x at hFirst
  generalize m'.run u = y at hFirst
  cases hFirst with
  | error why => exact .error why
  | ok hState' => exact hk _ _ _ hState'

theorem commutes_ite {c : Prop} [Decidable c] {k k' : Flat α} (hm : Commutes T f m m')
    (hk : Commutes T f k k') : Commutes T f (if c then m else k) (if c then m' else k') := by
  split
  · exact hm
  · exact hk

theorem commutes_atTop : Commutes T id atTop atTop := by
  intro s u h
  have hTop : (atTop : Flat Bool).run u = .ok (id (decide (s.region = .top)), u) := by
    rw [← h.region]
    rfl
  rw [hTop]
  exact .ok h

theorem commutes_push (n : Node) : Commutes T id (push n) (push (n.recast g)) := by
  intro s u h
  refine .ok (a := ()) ⟨h.region, h.table, ?_⟩
  rw [List.map_append, ← h.before]
  rfl

theorem commutes_flush : Commutes T (List.map (Node.recast g)) flush flush := by
  intro s u h
  have hFlush : (flush : Flat (List Node)).run u =
      .ok (s.before.map (Node.recast g), { u with before := [] }) := by
    rw [← h.before]
    rfl
  rw [hFlush]
  exact .ok ⟨h.region, h.table, rfl⟩

theorem commutes_temporary (span : Span) :
    Commutes T (Node.recast g) (temporary span) (temporary (g.place span)) := by
  intro s u h
  simp only [temporary, StateT.run_bind, StateT.run_get, pure_bind, h.region]
  rcases T.next h.table with
    ⟨hNone, hNone'⟩ | ⟨name, t', u', hSome, hSome', hNext⟩
  · rw [hNone, hNone']
    exact .error _
  · rw [hSome, hSome']
    exact .ok (a := Node.ident span name) ⟨rfl, hNext, h.before⟩

theorem commutes_hoistValue (span : Span) (e : Node) :
    Commutes T (Node.recast g) (hoistValue span e) (hoistValue (g.place span) (e.recast g)) := by
  refine (commutes_temporary span).bind fun t => ?_
  exact (commutes_push (.assign span t e)).bind fun _ => commutes_pure t

theorem commutes_hoistTruth (span : Span) (cond : Node) :
    Commutes T (Node.recast g) (hoistTruth span cond)
      (hoistTruth (g.place span) (cond.recast g)) := by
  refine (commutes_temporary span).bind fun t => ?_
  exact (commutes_push (assignTruth span cond t)).bind fun _ => commutes_pure t

end

theorem treatment_recast (inFunction : Bool) (p : Position) (n : Node) :
    treatment inFunction p (n.recast g) = treatment inFunction p n := by
  cases n <;> cases p <;> rfl

theorem parts_recast (n : Node) :
    parts (n.recast g) = (parts n).map fun x => (x.1, x.2.recast g) := by
  cases n <;> simp [Node.recast, parts, Node.operands, Node.recastAll_eq_map]

theorem rebuild_recast (n : Node) (es : List Node) :
    (rebuild n es).recast g = rebuild (n.recast g) (es.map (Node.recast g)) := by
  match es with
  | [] | [_] | [_, _] | _ :: _ :: _ :: _ => cases n <;> simp [rebuild, Node.recast, Node.recastAll_eq_map]

theorem commutes_finish (t : Treatment) (span : Span) (e : Node) :
    Commutes T (Node.recast g) (finish t span e) (finish t (g.place span) (e.recast g)) := by
  cases t with
  | leave | keep => exact commutes_pure e
  | value => exact commutes_hoistValue span e
  | truth => exact commutes_hoistTruth span e
  | zero =>
    refine (commutes_hoistValue span e).bind fun t => ?_
    exact commutes_pure (Node.binary span .ne t (.number span 0))

theorem commutes_flattenAll {xs : List (Position × Node)}
    (h : ∀ x ∈ xs, Commutes T (Node.recast g) (flattenAt x.1 x.2) (flattenAt x.1 (x.2.recast g))) :
    Commutes T (List.map (Node.recast g)) (flattenAll xs)
      (flattenAll (xs.map fun x => (x.1, x.2.recast g))) := by
  induction xs with
  | nil => exact commutes_pure []
  | cons x rest ih =>
    obtain ⟨hx, hRest⟩ := List.forall_mem_cons.mp h
    exact hx.bind fun n => (ih hRest).bind fun ns => commutes_pure (n :: ns)

theorem commutes_flattenAt (p : Position) (n : Node) :
    Commutes T (Node.recast g) (flattenAt p n) (flattenAt p (n.recast g)) := by
  induction n using Node.inductionOnParts generalizing p with
  | step n ih =>
    cases hAbsent : n.isAbsent with
    | true =>
      cases n with
      | absent => cases p <;> exact commutes_throw _
      | _ => cases hAbsent
    | false =>
      have hAbsent' : (n.recast g).isAbsent = false := by rw [Node.isAbsent_recast, hAbsent]
      rw [flattenAt_eq hAbsent, flattenAt_eq hAbsent']
      refine commutes_atTop.bind fun top => ?_
      unfold turned
      rw [treatment_recast, parts_recast, Node.span_recast]
      refine commutes_ite (commutes_pure n) ?_
      refine (commutes_flattenAll fun x hx => ih x.2 (mem_children_of_mem_parts hx) x.1).bind fun es => ?_
      rw [← rebuild_recast]
      exact commutes_finish _ _ _

theorem recast_single (span : Span) (stmts : List Node) :
    (single span stmts).recast g = single (g.place span) (stmts.map (Node.recast g)) := by
  match stmts with
  | [] => rfl
  | [n] => rfl
  | n :: m :: rest =>
    rw [single, Node.recast, Node.recastAll_eq_map]
    · rfl
    · intro x hx
      cases hx

theorem commutes_pure_append (a b : List Node) :
    Commutes T (List.map (Node.recast g)) (pure (a ++ b))
      (pure (a.map (Node.recast g) ++ b.map (Node.recast g))) := by
  have h := commutes_pure (T := T) (f := List.map (Node.recast g)) (a ++ b)
  rwa [List.map_append] at h

theorem commutes_behind (n : Node) :
    Commutes T (List.map (Node.recast g))
      (do
        let before ← flush
        pure (before ++ [n]))
      (do
        let before ← flush
        pure (before ++ [n.recast g])) :=
  commutes_flush.bind fun before => commutes_pure_append before [n]

theorem commutes_statements {ns : List Node}
    (h : ∀ n ∈ ns, Commutes T (List.map (Node.recast g)) (statement n) (statement (n.recast g))) :
    Commutes T (List.map (Node.recast g)) (statements ns) (statements (Node.recastAll g ns)) := by
  induction ns with
  | nil =>
    rw [Node.recastAll, statements]
    exact commutes_pure []
  | cons n rest ih =>
    obtain ⟨hn, hRest⟩ := List.forall_mem_cons.mp h
    rw [Node.recastAll, statements, statements]
    exact hn.bind fun first => (ih hRest).bind fun others => commutes_pure_append first others

theorem commutes_body {n : Node} {k k' : Node → Flat (List Node)}
    (h : Commutes T (List.map (Node.recast g)) (statement n) (statement (n.recast g)))
    (hk : ∀ n', Commutes T (List.map (Node.recast g)) (k n') (k' (n'.recast g))) :
    Commutes T (List.map (Node.recast g))
      (if n.isAbsent = true then pure .absent >>= k
        else statement n >>= fun stmts => pure (single n.span stmts) >>= k)
      (if (n.recast g).isAbsent = true then pure .absent >>= k'
        else statement (n.recast g) >>= fun stmts => pure (single (n.recast g).span stmts) >>= k') := by
  rw [Node.isAbsent_recast, Node.span_recast]
  refine commutes_ite (hk .absent) (h.bind fun stmts => ?_)
  rw [pure_bind, pure_bind, ← recast_single]
  exact hk _

theorem commutes_statement (n : Node) :
    Commutes T (List.map (Node.recast g)) (statement n) (statement (n.recast g)) := by
  induction n using Node.induction with
  | absent => exact commutes_throw _
  | block span stmts synthetic ih =>
    rw [Node.recast, statement, statement]
    refine (commutes_statements ih).bind fun stmts' => ?_
    rw [← Node.recastAll_eq_map]
    exact commutes_pure [Node.block span stmts' synthetic]
  | assign span lhs rhs =>
    rw [Node.recast, statement, statement, Node.isComparison_recast]
    refine (commutes_flattenAt .place lhs).bind fun lhs' => commutes_ite ?_ ?_
    · refine (commutes_flattenAt .condition rhs).bind fun cond => ?_
      exact commutes_behind (assignTruth span cond lhs')
    · exact (commutes_flattenAt .value rhs).bind fun rhs' => commutes_behind (.assign span lhs' rhs')
  | call span callee args =>
    exact (commutes_flattenAt .text (.call span callee args)).bind commutes_behind
  | branch span cond thenBody elseBody _ ihThen ihElse =>
    rw [Node.recast, statement, statement]
    refine (commutes_flattenAt .condition cond).bind fun cond' => commutes_flush.bind fun before => ?_
    refine commutes_body ihThen fun thenBody' => commutes_body ihElse fun elseBody' => ?_
    exact commutes_pure_append before [.branch span cond' thenBody' elseBody']
  | loop span cond body _ ihBody =>
    rw [Node.recast, statement, statement]
    refine (commutes_flattenAt .condition cond).bind fun cond' => commutes_flush.bind fun before => ?_
    refine ihBody.bind fun stmts => ?_
    have h := commutes_pure_append (T := T) before
      [.loop span cond' (single body.span (stmts ++ before))]
    rwa [List.map_singleton, Node.recast, recast_single, List.map_append, ← Node.span_recast] at h
  | ret span e =>
    rw [Node.recast, statement, statement, Node.isAbsent_recast]
    refine commutes_ite (commutes_pure [Node.ret span .absent]) ?_
    exact (commutes_flattenAt .value e).bind fun e' => commutes_behind (.ret span e')
  | _ => exact commutes_pure _

theorem commutes_functionBody (n : Node) :
    Commutes T (Node.recast g) (functionBody n) (functionBody (n.recast g)) := by
  unfold functionBody
  rw [Node.isAbsent_recast, Node.span_recast]
  refine commutes_ite (commutes_pure Node.absent) ((commutes_statement n).bind fun stmts => ?_)
  rw [← recast_single]
  exact commutes_pure (single n.span stmts)

end BatchCompiler.Syntax.Flattening
