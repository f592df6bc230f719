import BatchCompiler.Proofs.Lowering.Labels

/-!
# The skeleton of loops

A loop becomes a label and, right behind it, a conditional that ends with the jump back. The labels of
a program are numbered in the order in which the loops of the source start, first those of the top
level and then those of each function, and stand in the same arms as the loops did. No other jump
leads to a loop.
-/

namespace BatchCompiler.Target

mutual

/-- The labels of a statement that stands in `arms`, each with the arms around it. -/
def Stmt.labelSites (arms : List Arm) : Stmt → List (String × List Arm)
  | .label name => [(name, arms)]
  | .whenTrue _ body => labelSitesOf (.body :: arms) body
  | .choose _ thenBody elseBody =>
    labelSitesOf (.body :: arms) thenBody ++ labelSitesOf (.otherwise :: arms) elseBody
  | _ => []

def labelSitesOf (arms : List Arm) : List Stmt → List (String × List Arm)
  | [] => []
  | s :: rest => s.labelSites arms ++ labelSitesOf arms rest

end

mutual

def Stmt.innerPositions : Stmt → List (Stmt × List Stmt)
  | .whenTrue _ body => positionsOf body
  | .choose _ thenBody elseBody => positionsOf thenBody ++ positionsOf elseBody
  | _ => []

def positionsOf : List Stmt → List (Stmt × List Stmt)
  | [] => []
  | s :: rest => (s, rest) :: (s.innerPositions ++ positionsOf rest)

end

theorem labelSitesOf_append (arms : List Arm) (a b : List Stmt) :
    labelSitesOf arms (a ++ b) = labelSitesOf arms a ++ labelSitesOf arms b := by
  induction a with
  | nil => rfl
  | cons s rest ih => simp only [List.cons_append, labelSitesOf, ih, List.append_assoc]

mutual

theorem Stmt.map_fst_labelSites (arms : List Arm) : (s : Stmt) →
    (s.labelSites arms).map Prod.fst = labelsOf [s]
  | .whenTrue c body => by
    rw [labelsOf_whenTrue, Stmt.labelSites, map_fst_labelSitesOf]
  | .choose c thenBody elseBody => by
    rw [labelsOf_choose, Stmt.labelSites, List.map_append, map_fst_labelSitesOf,
      map_fst_labelSitesOf]
  | .label _ => rfl
  | .absent | .raw _ | .comment _ | .jump _ | .setText .. | .setNumber .. | .call .. => rfl

theorem map_fst_labelSitesOf (arms : List Arm) : (code : List Stmt) →
    (labelSitesOf arms code).map Prod.fst = labelsOf code
  | [] => rfl
  | s :: rest => by
    rw [labelsOf_cons, labelSitesOf, List.map_append, Stmt.map_fst_labelSites, map_fst_labelSitesOf]

end

theorem mem_positionsOf_append {a b : List Stmt} {s : Stmt} {rest : List Stmt}
    (h : (s, rest) ∈ positionsOf (a ++ b)) :
    (∃ near more, (s, near) ∈ positionsOf a ∧ rest = near ++ more) ∨ (s, rest) ∈ positionsOf b := by
  induction a with
  | nil => exact .inr h
  | cons x others ih =>
    simp only [List.cons_append, positionsOf, List.mem_cons, List.mem_append] at h
    rcases h with h | h | h
    · obtain ⟨rfl, rfl⟩ := Prod.mk.inj h
      exact .inl ⟨others, b, List.mem_cons_self, rfl⟩
    · refine .inl ⟨rest, [], ?_, (List.append_nil rest).symm⟩
      exact List.mem_cons_of_mem _ (List.mem_append_left _ h)
    · rcases ih h with ⟨near, more, hMem, hRest⟩ | h
      · exact .inl ⟨near, more, List.mem_cons_of_mem _ (List.mem_append_right _ hMem), hRest⟩
      · exact .inr h

mutual

theorem Stmt.mem_statements_of_mem_innerPositions {x : Stmt} {rest : List Stmt} : (s : Stmt) →
    (x, rest) ∈ s.innerPositions → x ∈ s.statements
  | .whenTrue c body, h => List.mem_cons_of_mem _ (mem_statementsOf_of_mem_positionsOf body h)
  | .choose c thenBody elseBody, h => by
    refine List.mem_cons_of_mem _ (List.mem_append.mpr ?_)
    rcases List.mem_append.mp h with h | h
    · exact .inl (mem_statementsOf_of_mem_positionsOf thenBody h)
    · exact .inr (mem_statementsOf_of_mem_positionsOf elseBody h)
  | .absent, h | .raw _, h | .comment _, h | .label _, h | .jump _, h | .setText .., h
  | .setNumber .., h | .call .., h => by cases h

theorem mem_statementsOf_of_mem_positionsOf {x : Stmt} {rest : List Stmt} : (code : List Stmt) →
    (x, rest) ∈ positionsOf code → x ∈ statementsOf code
  | [], h => by cases h
  | s :: others, h => by
    rw [positionsOf, List.mem_cons, List.mem_append] at h
    rw [statementsOf, List.mem_append]
    rcases h with h | h | h
    · obtain ⟨rfl, _⟩ := Prod.mk.inj h
      left
      cases x <;> exact List.mem_cons_self
    · exact .inl (Stmt.mem_statements_of_mem_innerPositions s h)
    · exact .inr (mem_statementsOf_of_mem_positionsOf others h)

end

end BatchCompiler.Target

namespace BatchCompiler.Lowering

open Target

variable {s : Stmt} {k k' : Nat} {T rest : List Stmt}

structure FunctionCode where
  name : String
  params : List String
  body : List Stmt

def FunctionCode.code (f : FunctionCode) : List Stmt :=
  assemble f.name f.params f.body

def FunctionCode.inner (f : FunctionCode) : List Stmt :=
  innerCode f.params f.body

def numbered (first : Nat) (places : List (List Arm)) : List (String × List Arm) :=
  (places.zipIdx first).map fun x => (labelName x.2, x.1)

def numberedFrom (first : Nat) : List (List (List Arm)) → List (List (String × List Arm))
  | [] => []
  | places :: rest => numbered first places :: numberedFrom (first + places.length) rest

def JumpsBack (label : String) (code : List Stmt) : Prop :=
  ∃ c round after, code = .whenTrue c (round ++ [.jump label]) :: after

/-- The loops of a program whose top level is `top` and whose functions are `functions`. -/
structure LoopSkeleton (root : Node) (p : Program) (top : List Stmt)
    (functions : List FunctionCode) : Prop where
  program_eq : p = setup ++ (top ++ functions.flatMap FunctionCode.code)
  names_eq : functions.map FunctionCode.name =
    ScopeTable.declaredFunctions (ScopeTable.itemsOf root)
  /-- In each region the labels are those of its loops, in the order of the source and numbered
  through, and each stands in the arms that its loop stands in. -/
  sites_eq : (top :: functions.map FunctionCode.inner).map (labelSitesOf []) =
    numberedFrom 0 (Node.regionLoops (ScopeTable.itemsOf root))
  label_iff : ∀ k, labelName k ∈ labelsOf p ↔
    k < (Node.regionLoops (ScopeTable.itemsOf root)).flatten.length
  jumpsBack : ∀ k rest, (.label (labelName k), rest) ∈ positionsOf p → JumpsBack (labelName k) rest
  /-- One jump of the program leads to the loop, and it is a jump of the same region. -/
  jump_once : ∀ code ∈ top :: functions.map FunctionCode.inner, ∀ k, labelName k ∈ labelsOf code →
    (jumpsOf code).count (labelName k) = 1 ∧ (jumpsOf p).count (labelName k) = 1
  jump_cases : ∀ target rest, (.jump target, rest) ∈ positionsOf p →
    target = endOfFile ∨
    (∃ k, labelName k ∈ labelsOf p ∧ target = labelName k) ∨
    ∃ f ∈ functions, target = endLabel f.name ∧ ∃ after, rest = .label f.name :: after

theorem numbered_append (first : Nat) (a b : List (List Arm)) :
    numbered first (a ++ b) = numbered first a ++ numbered (first + a.length) b := by
  rw [numbered, List.zipIdx_append, List.map_append, numbered, numbered]

theorem numbered_cons (first : Nat) (place : List Arm) (places : List (List Arm)) :
    numbered first (place :: places) = (labelName first, place) :: numbered (first + 1) places :=
  rfl

theorem map_fst_numbered (first : Nat) (places : List (List Arm)) :
    (numbered first places).map Prod.fst = loopLabels first (first + places.length) := by
  rw [numbered, List.map_map, loopLabels, Nat.add_sub_cancel_left]
  exact (List.map_map (g := labelName) ..).symm.trans
    (congrArg (List.map labelName) (List.zipIdx_map_snd first places))

theorem map_fst_numberedFrom (first : Nat) (regions : List (List (List Arm))) :
    (numberedFrom first regions).flatten.map Prod.fst =
      loopLabels first (first + regions.flatten.length) := by
  induction regions generalizing first with
  | nil => simp [numberedFrom, loopLabels]
  | cons places rest ih =>
    rw [numberedFrom, List.flatten_cons, List.map_append, map_fst_numbered, ih, List.flatten_cons,
      List.length_append, ← Nat.add_assoc]
    exact loopLabels_append (Nat.le_add_right _ _) (Nat.le_add_right _ _)

theorem labelSites_of_isPlain (h : isPlain s = true) (arms : List Arm) :
    s.labelSites arms = [] := by
  cases s with
  | label | whenTrue | choose => cases h
  | _ => rfl

theorem labelSitesOf_of_isPlain {A : List Stmt} (h : ∀ s ∈ A, isPlain s = true) (arms : List Arm) :
    labelSitesOf arms A = [] := by
  induction A with
  | nil => rfl
  | cons s rest ih =>
    obtain ⟨hs, hRest⟩ := List.forall_mem_cons.mp h
    rw [labelSitesOf, labelSites_of_isPlain hs, ih hRest, List.append_nil]

theorem Lowered.labelSitesOf_eq {c : Context} {ns : List Node} (h : Lowered c ns k T k')
    (arms : List Arm) :
    labelSitesOf arms T = numbered k (Node.loopsOf arms ns) ∧
      k' = k + (Node.loopsOf arms ns).length := by
  have hActions : ∀ (arms : List Arm) {A : List Stmt}, (∀ s ∈ A, isAction s = true) →
      labelSitesOf arms A = [] :=
    fun arms _ hA => labelSitesOf_of_isPlain (fun s hs => isPlain_of_isAction (hA s hs)) arms
  induction h generalizing arms with
  | nil => exact ⟨rfl, rfl⟩
  | @skip n _ _ _ _ hn _ ih =>
    have hNone : n.loops arms = [] := by
      cases n with
      | absent | empty | globals => simp only [Node.loops]
      | _ => cases hn
    rw [Node.loopsOf, hNone, List.nil_append]
    exact ih arms
  | comment _ ih | ret _ ih =>
    simpa [labelSitesOf, Stmt.labelSites, Node.loopsOf, Node.loops] using ih arms
  | block _ _ ihBody ih =>
    obtain ⟨hBody, rfl⟩ := ihBody arms
    obtain ⟨hRest, rfl⟩ := ih arms
    simp [labelSitesOf_append, Node.loopsOf, Node.loops, numbered_append, hBody, hRest,
      Nat.add_assoc]
  | call _ _ ih =>
    rw [labelSitesOf, labelSites_of_isPlain (isPlain_of_isAction (isAction_callStmt _ _ _))]
    simpa [Node.loopsOf, Node.loops] using ih arms
  | assign _ hRhs _ ih =>
    rw [labelSitesOf_append, hActions arms (isAction_of_lowerAssign hRhs)]
    simpa [Node.loopsOf, Node.loops] using ih arms
  | branch _ _ _ ihThen ih =>
    obtain ⟨hThen, rfl⟩ := ihThen (.body :: arms)
    obtain ⟨hRest, rfl⟩ := ih arms
    simp [labelSitesOf, Stmt.labelSites, Node.loopsOf, Node.loops, numbered_append, hThen, hRest,
      Nat.add_assoc]
  | branchElse _ _ _ _ _ ihThen ihElse ih =>
    obtain ⟨hThen, rfl⟩ := ihThen (.body :: arms)
    obtain ⟨hElse, rfl⟩ := ihElse (.otherwise :: arms)
    obtain ⟨hRest, rfl⟩ := ih arms
    simp [labelSitesOf, Stmt.labelSites, Node.loopsOf, Node.loops, numbered_append, hThen, hElse,
      hRest, Nat.add_assoc]
  | loop _ _ _ ihBody ih =>
    obtain ⟨hBody, rfl⟩ := ihBody (.body :: arms)
    obtain ⟨hRest, rfl⟩ := ih arms
    simp [labelSitesOf, Stmt.labelSites, labelSitesOf_append, Node.loopsOf, Node.loops,
      numbered_append, numbered_cons, hBody, hRest, Nat.add_assoc, Nat.add_comm]
  | retValue _ _ hValue _ ih =>
    rw [labelSitesOf_append, hActions arms (isAction_of_lowerAssign hValue)]
    simpa [labelSitesOf, Stmt.labelSites, Node.loopsOf, Node.loops] using ih arms

mutual

theorem labelSites_framed {arms : List Arm} : (s : Stmt) → s.framed.labelSites arms = s.labelSites arms
  | .whenTrue _ body => labelSitesOf_framed body
  | .choose _ thenBody elseBody =>
    congrArg₂ (· ++ ·) (labelSitesOf_framed thenBody) (labelSitesOf_framed elseBody)
  | .absent | .raw _ | .comment _ | .label _ | .jump _ | .setText .. | .setNumber .. | .call .. => rfl

theorem labelSitesOf_framed {arms : List Arm} : (T : List Stmt) →
    labelSitesOf arms (framed T) = labelSitesOf arms T
  | [] => rfl
  | s :: rest => congrArg₂ (· ++ ·) (labelSites_framed s) (labelSitesOf_framed rest)

end

theorem labelSitesOf_innerCode (params : List String) (body : List Stmt) (arms : List Arm) :
    labelSitesOf arms (innerCode params body) = labelSitesOf arms body := by
  have hReturn : labelSitesOf arms (if endsWithReturn body then [] else [.jump endOfFile]) = [] := by
    split <;> rfl
  rw [innerCode, labelSitesOf_append, labelSitesOf_append, hReturn, List.append_nil,
    labelSitesOf_of_isPlain fun _ => isPlain_of_mem_parameterCopies, List.nil_append]

theorem Looped.jumpsBack (h : Looped k T k') {name : String}
    (hMem : (.label name, rest) ∈ positionsOf T) : JumpsBack name rest := by
  induction h generalizing rest with
  | nil => cases hMem
  | @plain s T k k' hs _ ih =>
    cases s with
    | label | whenTrue | choose => cases hs
    | _ =>
      rcases List.mem_cons.mp hMem with hMem | hMem
      · cases hMem
      · exact ih hMem
  | whenTrue _ _ ihBody ih =>
    simp only [positionsOf, Stmt.innerPositions, List.mem_cons, List.mem_append] at hMem
    rcases hMem with hMem | hMem | hMem
    · cases hMem
    · exact ihBody hMem
    · exact ih hMem
  | choose _ _ _ ihThen ihElse ih =>
    simp only [positionsOf, Stmt.innerPositions, List.mem_cons, List.mem_append] at hMem
    rcases hMem with hMem | (hMem | hMem) | hMem
    · cases hMem
    · exact ihThen hMem
    · exact ihElse hMem
    · exact ih hMem
  | @loop c A T k k₁ k' _ _ ihBody ih =>
    simp only [positionsOf, Stmt.innerPositions, List.nil_append, List.mem_cons,
      List.mem_append] at hMem
    rcases hMem with hMem | hMem | hMem | hMem
    · cases hMem
      exact ⟨c, A, T, rfl⟩
    · cases hMem
    · rcases mem_positionsOf_append hMem with ⟨near, more, hNear, rfl⟩ | hMem
      · obtain ⟨c', round, after, rfl⟩ := ihBody hNear
        exact ⟨c', round, after ++ more, rfl⟩
      · simp [positionsOf, Stmt.innerPositions] at hMem
    · exact ih hMem

theorem LoweredEach.exists_functions {c : Context} {ns : List Node}
    {regions : List (Region × List Stmt)} (h : LoweredEach c ns k regions k') :
    ∃ functions : List FunctionCode, joined regions = functions.flatMap FunctionCode.code ∧
      functions.map (fun f => (f.name, .ok f.params)) =
        (Node.functionOutlines ns).map (fun o => (o.name, parameterNames o.params)) ∧
      (∀ f ∈ functions, ∃ k k', Looped k f.inner k') ∧
      (functions.map FunctionCode.inner).map (labelSitesOf []) =
        numberedFrom k ((Node.functionOutlines ns).map Node.FunctionOutline.loops) := by
  induction h with
  | nil => exact ⟨[], rfl, rfl, List.forall_mem_nil _, rfl⟩
  | @cons span name params ns body scope stmts framed names regions k k₁ k' _ hBody hFrame hParams
      _ ih =>
    obtain ⟨hSites, hNext⟩ := hBody.labelSitesOf_eq []
    rw [Node.loopsOf_singleton] at hSites hNext
    obtain ⟨functions, hJoined, hHeaders, hLooped, hNumbered⟩ := ih
    refine ⟨⟨name, names, framed⟩ :: functions, ?_, ?_, List.forall_mem_cons.mpr
      ⟨⟨_, _, (hBody.looped.of_inFrame hFrame).innerCode names⟩, hLooped⟩, ?_⟩
    · rw [List.flatMap_cons, ← hJoined]
      rfl
    · exact congr (congrArg List.cons (congrArg (name, ·) hParams.symm)) hHeaders
    · have hHere : labelSitesOf [] (innerCode names framed) = numbered k (body.loops []) := by
        rw [labelSitesOf_innerCode, eq_framed stmts _ hFrame, labelSitesOf_framed, hSites]
      rw [hNext] at hNumbered
      exact congr (congrArg List.cons hHere) hNumbered

theorem mem_positionsOf_functions {functions : List FunctionCode}
    (h : (s, rest) ∈ positionsOf (functions.flatMap FunctionCode.code)) :
    (∃ code ∈ functions.map FunctionCode.inner, ∃ near more,
      (s, near) ∈ positionsOf code ∧ rest = near ++ more) ∨
    ∃ f ∈ functions, (s = .jump (endLabel f.name) ∧ ∃ after, rest = .label f.name :: after) ∨
      s = .label f.name ∨ s = .label (endLabel f.name) := by
  induction functions with
  | nil => cases h
  | cons f others ih =>
    rw [List.flatMap_cons] at h
    rcases mem_positionsOf_append h with ⟨near, more, hHere, rfl⟩ | h
    · simp only [FunctionCode.code, assemble_eq, positionsOf, Stmt.innerPositions, List.nil_append,
        List.mem_cons] at hHere
      rcases hHere with hHere | hHere | hHere
      · obtain ⟨rfl, rfl⟩ := Prod.mk.inj hHere
        exact .inr ⟨f, List.mem_cons_self, .inl ⟨rfl, _, rfl⟩⟩
      · exact .inr ⟨f, List.mem_cons_self, .inr (.inl (Prod.mk.inj hHere).1)⟩
      · rcases mem_positionsOf_append hHere with ⟨near', more', hInner, rfl⟩ | hEnd
        · exact .inl ⟨f.inner, List.mem_cons_self, near', more' ++ more, hInner,
            List.append_assoc ..⟩
        · simp only [positionsOf, Stmt.innerPositions, List.nil_append, List.mem_singleton] at hEnd
          exact .inr ⟨f, List.mem_cons_self, .inr (.inr (Prod.mk.inj hEnd).1)⟩
    · rcases ih h with ⟨code, hCode, hPosition⟩ | ⟨g, hg, hPosition⟩
      · exact .inl ⟨code, List.mem_cons_of_mem _ hCode, hPosition⟩
      · exact .inr ⟨g, List.mem_cons_of_mem _ hg, hPosition⟩

theorem mem_positionsOf_program {top : List Stmt} {functions : List FunctionCode}
    (h : (s, rest) ∈ positionsOf (setup ++ (top ++ functions.flatMap FunctionCode.code))) :
    (∃ t, s = .raw t) ∨
    (∃ code ∈ top :: functions.map FunctionCode.inner, ∃ near more,
      (s, near) ∈ positionsOf code ∧ rest = near ++ more) ∨
    ∃ f ∈ functions, (s = .jump (endLabel f.name) ∧ ∃ after, rest = .label f.name :: after) ∨
      s = .label f.name ∨ s = .label (endLabel f.name) := by
  rcases mem_positionsOf_append h with ⟨near, more, hSetup, _⟩ | h
  · simp only [setup, positionsOf, Stmt.innerPositions, List.nil_append, List.mem_cons,
      List.not_mem_nil, or_false, Prod.mk.injEq] at hSetup
    rcases hSetup with ⟨rfl, _⟩ | ⟨rfl, _⟩ | ⟨rfl, _⟩ <;> exact .inl ⟨_, rfl⟩
  rcases mem_positionsOf_append h with ⟨near, more, hTop, hRest⟩ | h
  · exact .inr (.inl ⟨top, List.mem_cons_self, near, more, hTop, hRest⟩)
  · rcases mem_positionsOf_functions h with ⟨code, hCode, hPosition⟩ | hFunction
    · exact .inr (.inl ⟨code, List.mem_cons_of_mem _ hCode, hPosition⟩)
    · exact .inr (.inr hFunction)

section

variable {top : List Stmt} {functions : List FunctionCode}

theorem count_program (hNames : ∀ f ∈ functions, ∀ k, f.name ≠ labelName k) (i : Nat) :
    (labelsOf (setup ++ (top ++ functions.flatMap FunctionCode.code))).count (labelName i) =
      ((top :: functions.map FunctionCode.inner).flatMap labelsOf).count (labelName i) ∧
    (jumpsOf (setup ++ (top ++ functions.flatMap FunctionCode.code))).count (labelName i) =
      ((top :: functions.map FunctionCode.inner).flatMap jumpsOf).count (labelName i) := by
  have hSetup : labelsOf setup = [] ∧ jumpsOf setup = [] := ⟨rfl, rfl⟩
  rw [labelsOf_append, jumpsOf_append, labelsOf_append, jumpsOf_append, hSetup.1, hSetup.2,
    List.nil_append, List.nil_append, List.flatMap_cons, List.flatMap_cons]
  simp only [List.count_append, Nat.add_left_cancel_iff]
  induction functions with
  | nil => exact ⟨rfl, rfl⟩
  | cons f others ih =>
    obtain ⟨hName, hOthers⟩ := List.forall_mem_cons.mp hNames
    obtain ⟨ihLabels, ihJumps⟩ := ih hOthers
    have hLabels : labelsOf f.code = f.name :: (labelsOf f.inner ++ [endLabel f.name]) :=
      labelsOf_assemble ..
    have hJumps : jumpsOf f.code = endLabel f.name :: jumpsOf f.inner := jumpsOf_assemble ..
    have hEnd := endLabel_ne_labelName f.name i
    simp [labelsOf_append, jumpsOf_append, hLabels, hJumps, ihLabels, ihJumps, hName i, hEnd]

theorem loopSkeleton_of_regions {root : Node}
    (hNames : ∀ f ∈ functions, ∀ k, f.name ≠ labelName k)
    (hDeclared : functions.map FunctionCode.name =
      ScopeTable.declaredFunctions (ScopeTable.itemsOf root))
    (hLooped : ∀ code ∈ top :: functions.map FunctionCode.inner, ∃ k k', Looped k code k')
    (hSites : (top :: functions.map FunctionCode.inner).map (labelSitesOf []) =
      numberedFrom 0 (Node.regionLoops (ScopeTable.itemsOf root))) :
    LoopSkeleton root (setup ++ (top ++ functions.flatMap FunctionCode.code)) top functions := by
  have hLabels : (top :: functions.map FunctionCode.inner).flatMap labelsOf =
      loopLabels 0 (Node.regionLoops (ScopeTable.itemsOf root)).flatten.length := by
    have hFirst := map_fst_numberedFrom 0 (Node.regionLoops (ScopeTable.itemsOf root))
    rw [Nat.zero_add, ← hSites] at hFirst
    rw [← hFirst, List.map_flatten, List.map_map, List.flatMap_def]
    exact congrArg List.flatten (List.map_congr_left fun code _ => (map_fst_labelSitesOf [] code).symm)
  have hNodup : ((top :: functions.map FunctionCode.inner).flatMap labelsOf).Nodup :=
    hLabels ▸ nodup_loopLabels 0 _
  have hMem : ∀ k, labelName k ∈ labelsOf (setup ++ (top ++ functions.flatMap FunctionCode.code)) ↔
      labelName k ∈ (top :: functions.map FunctionCode.inner).flatMap labelsOf := fun k => by
    rw [← List.count_pos_iff, ← List.count_pos_iff, (count_program hNames k).1]
  refine ⟨rfl, hDeclared, hSites, fun k => ?_, fun k rest h => ?_, fun code hCode k hk => ?_,
    fun target rest h => ?_⟩
  · rw [hMem, hLabels, mem_loopLabels]
    constructor
    · rintro ⟨i, _, hi, hName⟩
      exact labelName_injective hName ▸ hi
    · exact fun hk => ⟨k, Nat.zero_le k, hk, rfl⟩
  · rcases mem_positionsOf_program h with ⟨t, hRaw⟩ | ⟨code, hCode, near, more, hNear, rfl⟩ |
      ⟨f, hf, ⟨hJump, _⟩ | hLabel | hLabel⟩
    · cases hRaw
    · obtain ⟨k₁, k₂, hLoop⟩ := hLooped code hCode
      obtain ⟨c, round, after, rfl⟩ := hLoop.jumpsBack hNear
      exact ⟨c, round, after ++ more, rfl⟩
    · cases hJump
    · exact absurd (Stmt.label.inj hLabel).symm (hNames f hf k)
    · exact absurd (Stmt.label.inj hLabel).symm (endLabel_ne_labelName f.name k)
  · obtain ⟨k₁, k₂, hLoop⟩ := hLooped code hCode
    have hAll : labelName k ∈ (top :: functions.map FunctionCode.inner).flatMap labelsOf :=
      List.mem_flatMap.mpr ⟨code, hCode, hk⟩
    have hJumps : ((top :: functions.map FunctionCode.inner).flatMap jumpsOf).count (labelName k) =
        ((top :: functions.map FunctionCode.inner).flatMap labelsOf).count (labelName k) := by
      rw [List.count_flatMap, List.count_flatMap]
      refine congrArg List.sum (List.map_congr_left fun x hx => ?_)
      obtain ⟨k₃, k₄, hx⟩ := hLooped x hx
      exact hx.count_jumpsOf k
    rw [hLoop.count_jumpsOf, (count_program hNames k).2, hJumps]
    exact ⟨List.count_eq_one_of_mem ((List.nodup_flatMap.mp hNodup).1 code hCode) hk,
      List.count_eq_one_of_mem hNodup hAll⟩
  · rcases mem_positionsOf_program h with ⟨t, hRaw⟩ | ⟨code, hCode, near, more, hNear, rfl⟩ |
      ⟨f, hf, ⟨hJump, hAfter⟩ | hLabel | hLabel⟩
    · cases hRaw
    · obtain ⟨k₁, k₂, hLoop⟩ := hLooped code hCode
      have hStmt := mem_statementsOf_of_mem_positionsOf code hNear
      rcases hLoop.jump (List.mem_filterMap.mpr ⟨_, hStmt, rfl⟩) with hEnd | hBack
      · exact .inl hEnd
      · obtain ⟨i, _, _, rfl⟩ := mem_loopLabels.mp hBack
        rw [← hLoop.labelsOf_eq] at hBack
        exact .inr (.inl ⟨i, (hMem i).mpr (List.mem_flatMap.mpr ⟨code, hCode, hBack⟩), rfl⟩)
    · exact .inr (.inr ⟨f, hf, Stmt.jump.inj hJump, hAfter⟩)
    · cases hLabel
    · cases hLabel

end

theorem declaredFunctions_eq (items : List Node) :
    ScopeTable.declaredFunctions items =
      (Node.functionOutlines items).map Node.FunctionOutline.name := by
  induction items with
  | nil => rfl
  | cons n rest ih =>
    cases n with
    | func span name params body => exact congrArg (name :: ·) ih
    | _ => exact ih

theorem exists_regions {settings : Settings} {file : Int} {source : List Char} {root : Node}
    {p : Program} (b : Stage.Reached settings file source root p) :
    ∃ (top : List Stmt) (functions : List FunctionCode),
      p = setup ++ (top ++ functions.flatMap FunctionCode.code) ∧
      functions.map (fun f => (f.name, .ok f.params)) =
        (Node.functionOutlines (ScopeTable.itemsOf root)).map
          (fun o => (o.name, parameterNames o.params)) ∧
      (∀ code ∈ top :: functions.map FunctionCode.inner, ∃ k k', Looped k code k') ∧
      (top :: functions.map FunctionCode.inner).map (labelSitesOf []) =
        numberedFrom 0 (Node.regionLoops (ScopeTable.itemsOf root)) := by
  have hKept := kept_of_flatten? b.flatten_eq (P := fun _ _ => True) (fun _ _ => trivial)
    fun _ _ _ _ => trivial
  obtain ⟨regions, s, hRun, rfl⟩ := exists_run_of_lower_eq_ok b.lower_eq
  obtain ⟨top, funcs, k, rfl, hLowered, hFuncs⟩ := exists_of_lowerRegions hRun
  obtain ⟨hTop, hNext⟩ := hLowered.labelSitesOf_eq []
  obtain ⟨functions, hJoined, hHeaders, hLooped, hNumbered⟩ := hFuncs.exists_functions
  rw [Node.functionOutlines_filter, hKept.outlines] at hHeaders hNumbered
  refine ⟨top, functions, ?_, hHeaders,
    List.forall_mem_cons.mpr ⟨⟨_, _, hLowered.looped⟩, by simpa using hLooped⟩, ?_⟩
  · rw [← hJoined]
    rfl
  · rw [Node.regionLoops, ← hKept.loops, numberedFrom, List.map_cons, hTop, hNumbered, hNext]
    rfl

/-- The loops of a source that is accepted and lowered, and the jumps of its program. -/
theorem exists_loopSkeleton {settings : Settings} {file : Int} {source : List Char}
    {root : Node} {p : Program} {log log' : List Remark}
    (h : (Stage.treeAndProgram settings file source).run log = (.ok (root, p), log')) :
    ∃ top functions, LoopSkeleton root p top functions := by
  obtain ⟨b⟩ := Stage.reached_of_run h
  have hFormed := Stage.formed_of_tokens b.tokens_eq b.parse_eq b.result_eq
  obtain ⟨top, functions, rfl, hHeaders, hLooped, hSites⟩ := exists_regions b
  have hNames : functions.map FunctionCode.name =
      ScopeTable.declaredFunctions (ScopeTable.itemsOf root) := by
    have hFirst := congrArg (List.map Prod.fst) hHeaders
    rw [List.map_map, List.map_map] at hFirst
    rw [declaredFunctions_eq]
    exact hFirst
  refine ⟨top, functions, loopSkeleton_of_regions (fun f hf k => ?_) hNames hLooped hSites⟩
  have hMem : f.name ∈ ScopeTable.declaredFunctions (ScopeTable.itemsOf root) :=
    hNames ▸ List.mem_map_of_mem hf
  exact ne_labelName (startsWith_of_isProgram hFormed.shape f.name hMem) k

def nestedLoopSource : List Char :=
  ("func f(x) \x7b while (x == 1) x = 2; \x7d " ++
    "while (a) if (b) while (c + 1) f(1); else while (d) f(2);").toList

theorem exists_loopSkeleton_nestedLoopSource :
    ∃ root p log, (Stage.treeAndProgram {} 0 nestedLoopSource).run [] = (.ok (root, p), log) ∧
      Node.regionLoops (ScopeTable.itemsOf root) =
        [[[], [.body, .body], [.otherwise, .body]], [[]]] ∧
      labelsOf p = ["__L0", "__L1", "__L2", "f", "__L3", "f__end"] ∧
      ∃ top functions, LoopSkeleton root p top functions := by
  have hEval : ((Stage.treeAndProgram {} 0 nestedLoopSource).run []).1.toOption.map
      (fun x => (Node.regionLoops (ScopeTable.itemsOf x.1), labelsOf x.2)) =
      some ([[[], [.body, .body], [.otherwise, .body]], [[]]],
        ["__L0", "__L1", "__L2", "f", "__L3", "f__end"]) := by
    decide +kernel
  obtain ⟨⟨root, p⟩, hSome, hEq⟩ := Option.map_eq_some_iff.mp hEval
  obtain ⟨hLoops, hLabels⟩ := Prod.mk.inj hEq
  obtain ⟨log, hRun⟩ := exists_run_of_toOption hSome
  exact ⟨root, p, log, hRun, hLoops, hLabels, exists_loopSkeleton hRun⟩

end BatchCompiler.Lowering
