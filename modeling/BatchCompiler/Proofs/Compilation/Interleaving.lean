import BatchCompiler.Proofs.Flattening.Interleaving
import BatchCompiler.Proofs.Flattening.Relabelling
import BatchCompiler.Proofs.Lowering.Relabelling
import Mathlib

/-!
# Where functions are declared

Of two programs with the same statements and the same functions, interleaved differently, both have
scopes or neither has. Both are lowered or neither is, for the same reason, and to the same program;
where expressions are flattened first, the programs may differ in the names of the temporaries of
functions.
-/

namespace BatchCompiler

open Node ScopeTable Target

namespace Lowering

open Syntax.Flattening

variable {settings : Settings} {table : ScopeTable} {R : Program → Program → Prop}

def RenamedFunction (name : String) (a b : List Stmt) : Prop :=
  ∃ params body rename, RenamesTemporaries rename ∧ a = assemble name params body ∧
    b = recode { name := rename } a

def EqualUpToTemporaries (names : List String) (p q : Program) : Prop :=
  ∃ top a b, p = setup ++ top ++ a ∧ q = setup ++ top ++ b ∧ PartByPart RenamedFunction names a b

def Reading.plain {r : Recast} (h : r.toRelabel.Moves) : Reading r where
  text := id
  comment := id
  text_eq := fun s => congrFun h.text s
  comment_eq := fun s => congrFun h.remark s

theorem Reading.eq_of_plain {r : Recast} {h : r.toRelabel.Moves} {a b : List Stmt}
    (hCode : (plain h).Code a b) : b = recode { name := r.name } a :=
  (recode_id b).symm.trans hCode

theorem free_of_parameterNames {params : List Node} {names : List String}
    (hParams : ∀ x ∈ params, x.isFreeName = true) (h : parameterNames params = .ok names) :
    ∀ x ∈ names, Text.startsWith Syntax.Parser.reservedLead x = false := by
  induction params generalizing names with
  | nil =>
    cases h
    exact List.forall_mem_nil _
  | cons p rest ih =>
    obtain ⟨hp, hRest⟩ := List.forall_mem_cons.mp hParams
    obtain ⟨span, name, rfl⟩ := exists_eq_ident hp
    rw [parameterNames] at h
    cases hOthers : parameterNames rest with
    | error e =>
      rw [hOthers] at h
      cases h
    | ok others =>
      rw [hOthers] at h
      cases h
      exact List.forall_mem_cons.mpr ⟨by simpa [isFreeName] using hp, ih hRest hOthers⟩

section

variable {c c' : Context} (hc : c.Alike c')

include hc

theorem runs_statements_same (ns : List Node) :
    Runs .same Eq (lowerStatements c false ns) (lowerStatements c' false ns) := by
  have hRun := runs_all (V := .plain (Recast.moves_ofNames id)) hc ns false
  rw [recastAll_eq_self fun n _ => n.recast_ofNames_id] at hRun
  refine hRun.imp fun a b hCode => ?_
  exact (recode_id a).symm.trans (Reading.eq_of_plain hCode).symm

theorem runFunctions_of_sameButTemporaries {n n' : Node} (h : SameButTemporaries n n') :
    RunFunctions .same RenamedFunction c c' n n' := by
  obtain ⟨span, name, params, body, rename, hRename, hParams, rfl, rfl⟩ := h
  refine ⟨span, name, params, body, span, params, _, rfl, rfl, ?_⟩
  have hRun := runs_function (V := .plain (Recast.moves_ofNames rename)) hc span name params body
  rw [relabelAll_of_eq_id rfl (Recast.moves_ofNames rename)] at hRun
  refine hRun.imp ?_
  rintro _ _ ⟨names, code, code', hNames, rfl, rfl, hCode⟩
  refine ⟨names, code, rename, hRename, rfl, ?_⟩
  have hFree := free_of_parameterNames hParams hNames
  have hFixed : names.map rename = names :=
    (List.map_congr_left fun x hx => fixes_free hRename x (hFree x hx)).trans (List.map_id' names)
  rw [recode_assemble, hFixed, Reading.eq_of_plain hCode]
  rfl

theorem runs_items_of_alikeFlat {names : List String} {flat flat' : List Node}
    (h : AlikeFlat names flat flat') :
    Runs .same (EqualUpToTemporaries names) (lowerItems c flat) (lowerItems c' flat') := by
  have hAbsent : ∀ {ns : List Node}, (∀ n ∈ ns, n.isAbsent = false) → ns.any isAbsent = false :=
    fun hns => List.any_eq_false.mpr fun n hn => by simp [hns n hn]
  have hStmts := runs_statements_same hc (statementsAmong flat)
  have hFuncs := runs_functions (h.functions.imp fun _ _ hSame =>
    runFunctions_of_sameButTemporaries hc hSame)
  rw [h.names] at hFuncs
  nth_rewrite 2 [← h.statements] at hStmts
  refine (runs_items ((hAbsent h.isAbsent').trans (hAbsent h.isAbsent).symm) hStmts hFuncs).imp ?_
  rintro _ _ ⟨a, b, a', b', rfl, rfl, rfl, hParts⟩
  exact ⟨a, b, b', rfl, rfl, hParts⟩

end

theorem lowerItems_of_sameItems (c : Context) {ns ns' : List Node}
    (hItems : ∀ n ∈ ns, n.isItem = true) (hItems' : ∀ n ∈ ns', n.isItem = true)
    (hSame : SameItems ns ns') : lowerItems c ns' = lowerItems c ns := by
  have hAbsent : ∀ {ns : List Node}, (∀ n ∈ ns, n.isItem = true) → ns.any isAbsent = false :=
    fun hns => List.any_eq_false.mpr fun n hn => by simp [isAbsent_of_isItem (hns n hn)]
  have hStatements := hSame.statements
  have hFunctions := hSame.functions
  unfold statementsAmong at hStatements
  unfold functionsAmong at hFunctions
  unfold lowerItems
  rw [hAbsent hItems, hAbsent hItems', hStatements, hFunctions]

end Lowering

/-- Two results: both are failures that are told to be alike, or both are there and related. -/
inductive AlikeResults {ε α : Type} (E : ε → ε → Prop) (R : α → α → Prop) :
    Except ε α → Except ε α → Prop where
  | error {e e' : ε} (h : E e e') : AlikeResults E R (.error e) (.error e')
  | ok {a a' : α} (h : R a a') : AlikeResults E R (.ok a) (.ok a')

def Failure.relabel (g : Relabel) : Failure → Failure
  | .diagnostic d => .diagnostic { d with span := g.place d.span }
  | .lowering e => .lowering { e with span := g.place e.span }
  | f => f

/-- The failures say the same, at places that `g` does not tell apart. -/
def Failure.Same (g : Relabel) (f f' : Failure) : Prop :=
  f'.relabel g = f.relabel g

namespace Stage

def failureOfBuild : BuildError → Failure
  | .rejected span problem => .diagnostic { span := span, message := problem.message }
  | .crash why => .crash why

def failureOfLowering : Lowering.Failure → Failure
  | .rejected e => .lowering e
  | .crash why => .crash why

theorem run_lowerTree_of_error {root : Node} {e : BuildError} (h : build root = .error e)
    (settings : Settings) (log : List Remark) :
    ((lowerTree settings root).run log).1 = .error (failureOfBuild e) := by
  have hScopes : scopes root = throw (failureOfBuild e) := by
    unfold scopes
    rw [h]
    cases e <;> rfl
  rw [lowerTree, hScopes]
  rfl

theorem fst_run_target (settings : Settings) (table : ScopeTable) (root : Node) (log : List Remark) :
    ((target settings table root).run log).1 =
      (Lowering.lower settings table root).1.mapError failureOfLowering := by
  unfold target
  obtain ⟨result, remarks⟩ := Lowering.lower settings table root
  cases result with
  | ok p => rfl
  | error e => cases e <;> rfl

theorem run_lowerTree {root flat : Node} {flatTable : ScopeTable} (hBuild : build root = .ok table)
    (hFlat : flatten? settings table root = .ok (flat, flatTable)) (log : List Remark) :
    ((lowerTree settings root).run log).1 =
      (Lowering.lower settings flatTable flat).1.mapError failureOfLowering := by
  have hScopes : scopes root = pure table := by
    unfold scopes
    rw [hBuild]
  have hFlatTree : flatTreeIfEnabled settings table root = pure (flat, flatTable) := by
    unfold flatten? at hFlat
    unfold flatTreeIfEnabled flatTree
    split at hFlat
    · next hSplit => rw [if_pos hSplit, hFlat]
    · next hSplit => rw [if_neg hSplit, Except.ok.inj hFlat]
  rw [lowerTree, hScopes, pure_bind, hFlatTree, pure_bind]
  exact fst_run_target settings flatTable flat log

end Stage

section

variable {g : Relabel} {root root' : Node}

theorem alike_of_relabelResult {x x' : Except BuildError ScopeTable}
    (h : relabelResult g (ScopeTable.relabel g) x' = relabelResult g (ScopeTable.relabel g) x) :
    AlikeResults (fun e e' => e'.relabel g = e.relabel g) (fun t t' => t'.relabel g = t.relabel g)
      x x' := by
  cases x with
  | error e =>
    cases x' with
    | error e' => exact .error (Except.error.inj h)
    | ok t' => cases h
  | ok t =>
    cases x' with
    | error e' => cases h
    | ok t' => exact .ok (Except.ok.inj h)

theorem relabel_failureOfBuild (e : BuildError) :
    (Stage.failureOfBuild e).relabel g = Stage.failureOfBuild (e.relabel g) := by
  cases e <;> rfl

theorem relabel_failureOfLowering (e : Lowering.Failure) :
    (Stage.failureOfLowering e).relabel g = Stage.failureOfLowering (e.relabel g) := by
  cases e <;> rfl

theorem relabel_same (e : Lowering.Failure) : e.relabel .same = e := by
  cases e <;> rfl

theorem alike_of_reads {x x' y y' : Except Lowering.Failure Program} (hx : Lowering.Reads g Eq x y)
    (hx' : Lowering.Reads g Eq x' y') (h : Lowering.Reads .same R y y') :
    AlikeResults (Failure.Same g) R (x.mapError Stage.failureOfLowering)
      (x'.mapError Stage.failureOfLowering) := by
  cases x with
  | error e =>
    obtain rfl := hx.eq_error
    obtain rfl := h.eq_error
    cases x' with
    | error e' =>
      have hSame : (e.relabel g).relabel .same = e'.relabel g := Except.error.inj hx'.eq_error
      refine .error ?_
      rw [Failure.Same, relabel_failureOfLowering, relabel_failureOfLowering, ← hSame, relabel_same]
    | ok p' =>
      obtain ⟨_, hOk, _⟩ := hx'.exists_eq_ok
      cases hOk
  | ok p =>
    obtain ⟨_, rfl, rfl⟩ := hx.exists_eq_ok
    obtain ⟨q', rfl, hR⟩ := h.exists_eq_ok
    cases x' with
    | error e' => cases hx'.eq_error
    | ok p' =>
      obtain ⟨_, hOk, rfl⟩ := hx'.exists_eq_ok
      cases hOk
      exact .ok hR

theorem reads_lower_moved (hg : g.Moves) (settings : Settings) (table : ScopeTable) (root : Node) :
    Lowering.Reads g Eq (Lowering.lower settings table root).1
      (Lowering.lower settings (table.relabel g) (root.relabel g)).1 := by
  have hMoves : g.keepingNames.toRelabel.Moves := ⟨hg.text, hg.remark⟩
  refine (Lowering.reads_lower_relabel (.plain hMoves) settings table root).1.imp fun a b hCode => ?_
  exact (recode_id a).symm.trans (Lowering.Reading.eq_of_plain hCode).symm

theorem same_failureOfBuild {e e' : BuildError} (h : e'.relabel g = e.relabel g) :
    Failure.Same g (Stage.failureOfBuild e) (Stage.failureOfBuild e') := by
  rw [Failure.Same, relabel_failureOfBuild, relabel_failureOfBuild, h]

theorem fst_lower (hRoot : root.isProgram = true) :
    (Lowering.lower settings table (root.relabel g)).1 =
      ((Lowering.lowerItems { settings := settings, table := table }
        (itemsOf (root.relabel g))).run {}).1 := by
  cases root with
  | block => rfl
  | _ => cases hRoot

theorem exists_flatten_of_items {flat : List Node} {s : Syntax.Flattening.State}
    (hRoot : root.isProgram = true)
    (hRun : (Syntax.Flattening.items (itemsOf (root.relabel g))).run { table := table } =
      .ok (flat, s)) :
    ∃ top, Syntax.flatten table (root.relabel g) = .ok (top, s.table) ∧
      (Lowering.lower settings s.table top).1 =
        ((Lowering.lowerItems { settings := settings, table := s.table } flat).run {}).1 := by
  cases root with
  | block span ns synthetic =>
    refine ⟨.block (g.place span) flat synthetic, ?_, rfl⟩
    change (Syntax.Flattening.items (relabelAll g ns)).run { table := table } = .ok (flat, s) at hRun
    rw [Node.relabel, Syntax.flatten, Syntax.Flattening.program,
      Syntax.Flattening.run_bind_of_ok hRun]
    rfl
  | _ => cases hRoot

theorem exists_flatten_of_relabel {t : ScopeTable} {flat : Node}
    (h : Syntax.flatten (table.relabel g) (root.relabel g) = .ok (flat, t)) :
    ∃ top u, Syntax.flatten table root = .ok (top, u) ∧ top.relabel g = flat ∧ u.relabel g = t := by
  rw [Syntax.flatten_relabel] at h
  cases hFlat : Syntax.flatten table root with
  | error why =>
    rw [hFlat] at h
    cases h
  | ok r =>
    rw [hFlat] at h
    cases h
    exact ⟨r.1, r.2, rfl, rfl, rfl⟩

theorem declaredFunctions_relabel (ns : List Node) :
    declaredFunctions (ns.map (Node.relabel g)) = declaredFunctions ns := by
  induction ns with
  | nil => rfl
  | cons n rest ih =>
    cases n with
    | func span name params body => exact congrArg (name :: ·) ih
    | _ => exact ih

end

/-- Programs that parsing can produce with the same items, at places that `g` may move. -/
structure Interleaved (g : Relabel) (root root' : Node) : Prop where
  shape : root.isProgram = true
  shape' : root'.isProgram = true
  items : SameItems ((itemsOf root).map (Node.relabel g)) ((itemsOf root').map (Node.relabel g))

namespace Interleaved

variable {g : Relabel} {root root' : Node} (h : Interleaved g root root')

include h

theorem isItem_itemsOf : ∀ n ∈ itemsOf root, n.isItem = true :=
  Syntax.Flattening.isItem_of_isProgram h.shape

theorem isItem : ∀ n ∈ itemsOf (root.relabel g), n.isItem = true := by
  rw [itemsOf_relabel]
  simpa using h.isItem_itemsOf

theorem symm : Interleaved g root' root :=
  ⟨h.shape', h.shape, h.items.statements.symm, h.items.functions.symm⟩

theorem sameItems : SameItems (itemsOf (root.relabel g)) (itemsOf (root'.relabel g)) := by
  rw [itemsOf_relabel, itemsOf_relabel]
  exact h.items

theorem build_eq : build (root'.relabel g) = build (root.relabel g) :=
  build_sameItems h.isItem h.symm.isItem h.sameItems

theorem alike_build :
    AlikeResults (fun e e' => e'.relabel g = e.relabel g) (fun t t' => t'.relabel g = t.relabel g)
      (build root) (build root') := by
  apply alike_of_relabelResult
  rw [← build_relabel h.isItem_itemsOf, ← build_relabel h.symm.isItem_itemsOf, h.build_eq]

theorem reads_lower (settings : Settings) (table : ScopeTable) :
    Lowering.Reads .same Eq (Lowering.lower settings table (root.relabel g)).1
      (Lowering.lower settings table (root'.relabel g)).1 := by
  rw [fst_lower h.shape, fst_lower h.shape',
    Lowering.lowerItems_of_sameItems _ h.isItem h.symm.isItem h.sameItems]
  generalize (Lowering.lowerItems _ _).run _ = r
  cases hResult : r.1 with
  | error e =>
    have hError : Lowering.Reads .same Eq (.error e : Except Lowering.Failure Program)
        (.error (e.relabel .same) : Except Lowering.Failure Program) := .error e
    rwa [relabel_same] at hError
  | ok p => exact .ok rfl

theorem reads_lower_flat (hBuild : build (root.relabel g) = .ok table) (settings : Settings) :
    ∃ flat flat' t t', Syntax.flatten table (root.relabel g) = .ok (flat, t) ∧
      Syntax.flatten table (root'.relabel g) = .ok (flat', t') ∧
      Lowering.Reads .same (Lowering.EqualUpToTemporaries (declaredFunctions (itemsOf root)))
        (Lowering.lower settings t flat).1 (Lowering.lower settings t' flat').1 := by
  obtain ⟨flat, flat', s, s', hRun, hRun', hNames, hAlike⟩ :=
    Syntax.Flattening.exists_items_of_sameItems h.isItem h.symm.isItem h.sameItems hBuild
  obtain ⟨top, hFlatten, hLower⟩ := exists_flatten_of_items h.shape hRun
  obtain ⟨top', hFlatten', hLower'⟩ := exists_flatten_of_items h.shape' hRun'
  refine ⟨top, top', s.table, s'.table, hFlatten, hFlatten', ?_⟩
  rw [hLower, hLower', ← declaredFunctions_relabel, ← itemsOf_relabel]
  have hContexts : Lowering.Context.Alike { settings := settings, table := s.table }
      { settings := settings, table := s'.table } := ⟨rfl, hNames, rfl, rfl⟩
  exact (Lowering.runs_items_of_alikeFlat hContexts hAlike {}).1

theorem alike_of_scopes {log : List Remark}
    (hScopes : ∀ table table', build root = .ok table → build root' = .ok table' →
      table'.relabel g = table.relabel g →
      AlikeResults (Failure.Same g) R ((Stage.lowerTree settings root).run log).1
        ((Stage.lowerTree settings root').run log).1) :
    AlikeResults (Failure.Same g) R ((Stage.lowerTree settings root).run log).1
      ((Stage.lowerTree settings root').run log).1 := by
  have hBuild := h.alike_build
  generalize hFirst : build root = x at hBuild
  generalize hSecond : build root' = x' at hBuild
  cases hBuild with
  | error hSame =>
    rw [Stage.run_lowerTree_of_error hFirst, Stage.run_lowerTree_of_error hSecond]
    exact .error (same_failureOfBuild hSame)
  | ok hSame => exact hScopes _ _ hFirst hSecond hSame

theorem alike_lowerTree (hg : g.Moves) (hSplit : settings.feature .split = false)
    (log : List Remark) :
    AlikeResults (Failure.Same g) Eq ((Stage.lowerTree settings root).run log).1
      ((Stage.lowerTree settings root').run log).1 := by
  have hFlat : ∀ table root, Stage.flatten? settings table root = .ok (root, table) := by
    intro table root
    rw [Stage.flatten?, if_neg (by rw [hSplit]; decide)]
  refine h.alike_of_scopes fun table table' hFirst hSecond hSame => ?_
  rw [Stage.run_lowerTree hFirst (hFlat _ _), Stage.run_lowerTree hSecond (hFlat _ _)]
  have hMoved' := reads_lower_moved hg settings table' root'
  rw [hSame] at hMoved'
  exact alike_of_reads (reads_lower_moved hg settings table root) hMoved' (h.reads_lower settings _)

theorem alike_lowerTree_split (hg : g.Moves) (hSplit : settings.feature .split = true)
    (log : List Remark) :
    AlikeResults (Failure.Same g) (Lowering.EqualUpToTemporaries (declaredFunctions (itemsOf root)))
      ((Stage.lowerTree settings root).run log).1 ((Stage.lowerTree settings root').run log).1 := by
  have hFlat : ∀ table root, Stage.flatten? settings table root = Syntax.flatten table root := by
    intro table root
    rw [Stage.flatten?, if_pos hSplit]
  refine h.alike_of_scopes fun table table' hFirst hSecond hSame => ?_
  have hMoved : build (root.relabel g) = .ok (table.relabel g) := by
    rw [build_relabel h.isItem_itemsOf, hFirst]
    rfl
  obtain ⟨flat, flat', t, t', hFlatten, hFlatten', hReads⟩ := h.reads_lower_flat hMoved settings
  rw [← hSame] at hFlatten'
  obtain ⟨top, u, hTop, rfl, rfl⟩ := exists_flatten_of_relabel hFlatten
  obtain ⟨top', u', hTop', rfl, rfl⟩ := exists_flatten_of_relabel hFlatten'
  rw [Stage.run_lowerTree hFirst ((hFlat _ _).trans hTop),
    Stage.run_lowerTree hSecond ((hFlat _ _).trans hTop')]
  exact alike_of_reads (reads_lower_moved hg settings u top) (reads_lower_moved hg settings u' top')
    hReads

end Interleaved

/-- Where functions are declared among the statements of a program does not matter: whether it has
scopes, what the program is lowered to, and why it is not. If expressions are flattened first, the
temporaries of functions may have other names. -/
theorem lowerTree_interleaved {before before' : Settings} {tokens tokens' : List Token}
    {parsed parsed' : Syntax.Parsed} {root root' : Node}
    (hParse : Syntax.parse? before tokens = some parsed) (hRoot : parsed.result = .ok root)
    (hParse' : Syntax.parse? before' tokens' = some parsed') (hRoot' : parsed'.result = .ok root')
    {g : Relabel} (hg : g.Moves)
    (hItems : SameItems ((itemsOf root).map (Node.relabel g)) ((itemsOf root').map (Node.relabel g)))
    (settings : Settings) (log : List Remark) :
    ((∃ table, build root = .ok table) ↔ ∃ table, build root' = .ok table) ∧
      (settings.feature .split = false →
        AlikeResults (Failure.Same g) Eq ((Stage.lowerTree settings root).run log).1
          ((Stage.lowerTree settings root').run log).1) ∧
      (settings.feature .split = true →
        AlikeResults (Failure.Same g)
          (Lowering.EqualUpToTemporaries (declaredFunctions (itemsOf root)))
          ((Stage.lowerTree settings root).run log).1
          ((Stage.lowerTree settings root').run log).1) := by
  have hShape := (Syntax.formed_of_parse (N := fun _ => True) (fun _ _ _ => trivial) hParse hRoot).shape
  have hShape' :=
    (Syntax.formed_of_parse (N := fun _ => True) (fun _ _ _ => trivial) hParse' hRoot').shape
  have h : Interleaved g root root' := ⟨hShape, hShape', hItems⟩
  refine ⟨?_, fun hSplit => h.alike_lowerTree hg hSplit log,
    fun hSplit => h.alike_lowerTree_split hg hSplit log⟩
  have hBuild := h.alike_build
  generalize build root = x at hBuild ⊢
  generalize build root' = x' at hBuild ⊢
  cases hBuild with
  | error _ => simp
  | ok _ => simp

def callTokens (span : Span) (x : String) : List Token :=
  [{ kind := .ident, value := "g", span := span }, { kind := .lparen, span := span },
    { kind := .ident, value := x, span := span }, { kind := .star, span := span },
    { kind := .ident, value := "y", span := span }, { kind := .rparen, span := span },
    { kind := .semi, span := span }]

def functionTokens (span : Span) : List Token :=
  [{ kind := .kwFunc, span := span }, { kind := .ident, value := "f", span := span },
    { kind := .lparen, span := span }, { kind := .ident, value := "x", span := span },
    { kind := .rparen, span := span }, { kind := .lbrace, span := span }] ++
    callTokens span "x" ++ [{ kind := .rbrace, span := span }]

def callNode (span : Span) (x : String) : Node :=
  .call span (.ident span "g") [.binary span .star (.ident span x) (.ident span "y")]

def functionNode (span : Span) : Node :=
  .func span "f" [.ident span "x"] (.block span [callNode span "x"] false)

def functionFirst : Node :=
  .block { line := 1 } [functionNode { line := 1 }, callNode { line := 2 } "y"] true

def functionLast : Node :=
  .block { line := 1 } [callNode { line := 1 } "y", functionNode { line := 2 }] true

def interleavedCode (temporary : String) : Program :=
  Lowering.setup ++
    [.setNumber (.name "__t0") (.binary .mul (.read (.name "y")) (.read (.name "y"))),
      .call (.text "g") [[.read (.name "__t0")]]] ++
    assemble "f" ["x"]
      [.setNumber (.item (.name temporary) frameIndex) (.binary .mul
          (.read (.item (.name "x") frameIndex)) (.read (.item (.name "y") frameIndex))),
        .call (.text "g") [[.read (.item (.name temporary) frameIndex)]]]

def Relabel.placeless : Relabel :=
  { Relabel.erasing with text := id, remark := id }

theorem lowerTree_interleaved_functionFirst :
    ∃ parsed parsed',
      Syntax.parse? {} (functionTokens { line := 1 } ++ callTokens { line := 2 } "y" ++
        [{ kind := .eof }]) = some parsed ∧ parsed.result = .ok functionFirst ∧
      Syntax.parse? {} (callTokens { line := 1 } "y" ++ functionTokens { line := 2 } ++
        [{ kind := .eof }]) = some parsed' ∧ parsed'.result = .ok functionLast ∧
      ((Stage.lowerTree {} functionFirst).run []).1 = .ok (interleavedCode "__t0") ∧
      ((Stage.lowerTree {} functionLast).run []).1 = .ok (interleavedCode "__t1") ∧
      Lowering.EqualUpToTemporaries ["f"] (interleavedCode "__t0") (interleavedCode "__t1") := by
  have hEval : (Syntax.parse? {} (functionTokens { line := 1 } ++ callTokens { line := 2 } "y" ++
      [{ kind := .eof }])).map Syntax.Parsed.result = some (.ok functionFirst) := by cbv
  have hEval' : (Syntax.parse? {} (callTokens { line := 1 } "y" ++ functionTokens { line := 2 } ++
      [{ kind := .eof }])).map Syntax.Parsed.result = some (.ok functionLast) := by cbv
  have hCode : ((Stage.lowerTree {} functionFirst).run []).1 = .ok (interleavedCode "__t0") := by cbv
  have hCode' : ((Stage.lowerTree {} functionLast).run []).1 = .ok (interleavedCode "__t1") := by cbv
  obtain ⟨parsed, hParse, hRoot⟩ := Option.map_eq_some_iff.mp hEval
  obtain ⟨parsed', hParse', hRoot'⟩ := Option.map_eq_some_iff.mp hEval'
  have hAlike := (lowerTree_interleaved hParse hRoot hParse' hRoot' (g := .placeless) ⟨rfl, rfl⟩
    ⟨rfl, rfl⟩ {} []).2.2 rfl
  rw [hCode, hCode'] at hAlike
  cases hAlike with
  | ok hEqual => exact ⟨parsed, parsed', hParse, hRoot, hParse', hRoot', hCode, hCode', hEqual⟩

end BatchCompiler
