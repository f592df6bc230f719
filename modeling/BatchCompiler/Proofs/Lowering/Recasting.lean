import BatchCompiler.Lowering.Statement
import BatchCompiler.Proofs.Lowering.Recoding
import BatchCompiler.Proofs.Scope.Table
import BatchCompiler.Proofs.Syntax.Recasting
import Mathlib.Data.List.Forall2

/-!
# Lowering recast trees

Lowering goes by the form of a tree and by which functions there are. A recast tree is lowered
exactly if the tree is: to code that corresponds, with the same labels, and with the same remarks and
errors at the new places. How the texts of the two correspond depends on what is looked at, so a
reading of them is a parameter.
-/

namespace BatchCompiler.Lowering

open Target

variable {ns ns' : List Node}

def Failure.relabel (g : Relabel) : Failure → Failure
  | .rejected e => .rejected { e with span := g.place e.span }
  | .crash why => .crash why

def Progress.relabel (g : Relabel) (p : Progress) : Progress :=
  { p with remarks := p.remarks.map (Remark.relabel g) }

/-- A way to look at texts that does not see how a recast changes them. -/
structure Reading (r : Recast) where
  text : String → String
  comment : String → String
  text_eq : ∀ s, text (r.text s) = text s
  comment_eq : ∀ s, comment (r.remark s) = comment s

namespace Reading

variable {r : Recast} (V : Reading r)

def before : Recode where
  name := r.name
  text := V.text
  comment := V.comment

def after : Recode where
  name := id
  text := V.text
  comment := V.comment

def Texts (a b : List Fragment) : Prop :=
  recodeText V.after b = recodeText V.before a

def Comparisons (a b : Comparison) : Prop :=
  b.recode V.after = a.recode V.before

def Code (a b : List Stmt) : Prop :=
  recode V.after b = recode V.before a

variable {V}

theorem Texts.append {a a' b b' : List Fragment} (h : V.Texts a b) (h' : V.Texts a' b') :
    V.Texts (a ++ a') (b ++ b') := by
  unfold Texts at *
  rw [recodeText_append, recodeText_append, h, h']

theorem Code.append {a a' b b' : List Stmt} (h : V.Code a b) (h' : V.Code a' b') :
    V.Code (a ++ a') (b ++ b') := by
  unfold Code at *
  rw [recode_append, recode_append, h, h']

theorem rename_after (p : Place) : p.rename V.after.name = p :=
  p.rename_id

theorem texts_read (p : Place) : V.Texts [.read p] [.read (p.rename r.name)] :=
  congrArg (fun q => [Fragment.read q]) (rename_after _)

theorem texts_text {s s' : String} (h : V.text s' = V.text s) : V.Texts [.text s] [.text s'] :=
  congrArg (fun s => [Fragment.text s]) h

theorem comparisons_mk (op : CmpOp) {a a' b b' : List Fragment} (h : V.Texts a b)
    (h' : V.Texts a' b') :
    V.Comparisons { op := op, left := a, right := a' } { op := op, left := b, right := b' } :=
  congrArg₂ (Comparison.mk op) h h'

theorem code_setText (dst : Place) {value value' : List Fragment} (h : V.Texts value value') :
    V.Code [.setText dst value] [.setText (dst.rename r.name) value'] :=
  congrArg₂ (fun p fs => [Stmt.setText p fs]) (rename_after _) h

theorem code_setNumber (dst : Place) (e : Arith) :
    V.Code [.setNumber dst e] [.setNumber (dst.rename r.name) (e.rename r.name)] :=
  congrArg₂ (fun p e => [Stmt.setNumber p e]) (rename_after _) (Arith.rename_id _)

theorem code_call (callee : String) {args args' : List (List Fragment)}
    (h : List.Forall₂ V.Texts args args') :
    V.Code [.call (.text callee) args] [.call (.text callee) args'] := by
  have hArgs : args'.map (recodeText V.after) = args.map (recodeText V.before) := by
    induction h with
    | nil => rfl
    | cons hHead _ ih => rw [List.map_cons, List.map_cons, hHead, ih]
  exact congrArg (fun fs => [Stmt.call (.text callee) fs]) hArgs

theorem code_whenTrue {x x' : Comparison} {body body' : List Stmt} (hx : V.Comparisons x x')
    (hBody : V.Code body body') : V.Code [.whenTrue x body] [.whenTrue x' body'] :=
  congrArg₂ (fun x body => [Stmt.whenTrue x body]) hx hBody

theorem code_choose {x x' : Comparison} {a a' b b' : List Stmt} (hx : V.Comparisons x x')
    (ha : V.Code a a') (hb : V.Code b b') : V.Code [.choose x a b] [.choose x' a' b'] := by
  change [Stmt.choose (x'.recode V.after) (recode V.after a') (recode V.after b')] =
    [Stmt.choose (x.recode V.before) (recode V.before a) (recode V.before b)]
  rw [hx, ha, hb]

end Reading

section

variable {α α' β β' : Type} {g : Relabel}

variable {x : Except Failure α} {x' : Except Failure α'} {m : Lower α} {m' : Lower α'}

/-- Both fail in the same way, the second at the new place, or both give something and what they
give is related. -/
inductive Reads (g : Relabel) (R : α → α' → Prop) : Except Failure α → Except Failure α' → Prop where
  | error (e : Failure) : Reads g R (.error e) (.error (e.relabel g))
  | ok {a : α} {a' : α'} (h : R a a') : Reads g R (.ok a) (.ok a')

variable {R : α → α' → Prop} {S : β → β' → Prop}

theorem Reads.bind {k : α → Except Failure β} {k' : α' → Except Failure β'} (hx : Reads g R x x')
    (hk : ∀ a a', R a a' → Reads g S (k a) (k' a')) : Reads g S (x >>= k) (x' >>= k') := by
  cases hx with
  | error e => exact .error e
  | ok h => exact hk _ _ h

theorem Reads.eq_error {e : Failure} (h : Reads g R (.error e) x') : x' = .error (e.relabel g) := by
  cases h
  rfl

theorem Reads.exists_eq_ok {a : α} (h : Reads g R (.ok a) x') : ∃ a', x' = .ok a' ∧ R a a' := by
  cases h with
  | ok hR => exact ⟨_, rfl, hR⟩

theorem Reads.imp {R' : α → α' → Prop} (hx : Reads g R x x') (h : ∀ a a', R a a' → R' a a') :
    Reads g R' x x' := by
  cases hx with
  | error e => exact .error e
  | ok hR => exact .ok (h _ _ hR)

theorem Reads.result (hx : Reads g R x x') : Reads g (fun a a' => R a a' ∧ x = .ok a) x x' := by
  cases hx with
  | error e => exact .error e
  | ok hR => exact .ok ⟨hR, rfl⟩

def Runs (g : Relabel) (R : α → α' → Prop) (m : Lower α) (m' : Lower α') : Prop :=
  ∀ p : Progress, Reads g R (m.run p).1 (m'.run (p.relabel g)).1 ∧
    (m'.run (p.relabel g)).2 = (m.run p).2.relabel g

theorem runs_pure {a : α} {a' : α'} (h : R a a') : Runs g R (pure a) (pure a') :=
  fun _ => ⟨.ok h, rfl⟩

theorem runs_throw (e : Failure) : Runs g R (throw e) (throw (e.relabel g)) :=
  fun _ => ⟨.error e, rfl⟩

theorem Reads.run (h : Reads g R x x') : Runs g R (liftLower x) (liftLower x') := by
  cases h with
  | error e => exact runs_throw e
  | ok h => exact runs_pure h

theorem Runs.bind {k : α → Lower β} {k' : α' → Lower β'} (hm : Runs g R m m')
    (hk : ∀ a a', R a a' → Runs g S (k a) (k' a')) : Runs g S (m >>= k) (m' >>= k') := by
  intro p
  have hRun : ∀ {α β : Type} (m : Lower α) (k : α → Lower β) p,
      (m >>= k).run p = ExceptT.bindCont k (m.run p).1 (m.run p).2 := fun _ _ _ => rfl
  obtain ⟨hResult, hProgress⟩ := hm p
  rw [hRun, hRun, hProgress]
  generalize (m.run p).1 = x at hResult ⊢
  generalize (m'.run (p.relabel g)).1 = x' at hResult ⊢
  cases hResult with
  | error e => exact ⟨.error e, rfl⟩
  | ok h => exact hk _ _ h _

theorem Runs.imp {R' : α → α' → Prop} (hm : Runs g R m m') (h : ∀ a a', R a a' → R' a a') :
    Runs g R' m m' :=
  fun p => ⟨(hm p).1.imp h, (hm p).2⟩

theorem runs_ite {q : Prop} [Decidable q] {k : Lower α} {k' : Lower α'} (hm : Runs g R m m')
    (hk : Runs g R k k') : Runs g R (if q then m else k) (if q then m' else k') := by
  split
  · exact hm
  · exact hk

theorem runs_newLabel : Runs g Eq newLabel newLabel :=
  fun _ => ⟨.ok rfl, rfl⟩

end

structure Context.Alike (c c' : Context) : Prop where
  settings : c'.settings = c.settings
  functions : c'.table.functionNames = c.table.functionNames
  scope : c'.scope = c.scope
  function : c'.function = c.function

theorem Context.Alike.isFunction {c c' : Context} (h : c.Alike c') (name : String) :
    c'.table.isFunction name = c.table.isFunction name := by
  rw [Bool.eq_iff_iff]
  unfold ScopeTable.isFunction
  rw [ScopeTable.functionScope?_isSome_iff, ScopeTable.functionScope?_isSome_iff, h.functions]

theorem runs_remark {g : Relabel} {c c' : Context} (h : c.Alike c') (w : Warning) (span : Span)
    (message : String) :
    Runs g Eq (remark c w span message) (remark c' w (g.place span) message) := by
  intro p
  refine ⟨.ok rfl, ?_⟩
  have hRun : ∀ (c : Context) span p, ((remark c w span message).run p).2 =
      { p with remarks := p.remarks ++ c.settings.remark w span message } := fun _ _ _ => rfl
  rw [hRun, hRun, h.settings, Settings.remark_relabel]
  simp only [Progress.relabel, List.map_append]

theorem isSilent_recast (n : Node) : isSilent (n.recast r) = isSilent n := by
  cases n <;> rfl

theorem isReturn_recast (n : Node) : isReturn (n.recast r) = isReturn n := by
  cases n <;> rfl

variable {r : Recast} {V : Reading r}

section

variable (scope : String)

theorem reads_place_index (n : Node) :
    Reads r.toRelabel (fun p q => q = p.rename r.name) (lowerPlace scope n)
        (lowerPlace scope (n.recast r)) ∧
      Reads r.toRelabel (fun i j => j = i.rename r.name) (lowerIndex scope n)
        (lowerIndex scope (n.recast r)) := by
  induction n using Node.induction with
  | ident span name => exact ⟨.ok rfl, .ok rfl⟩
  | subscript span array index ihArray ihIndex =>
    rw [Node.recast, lowerPlace, lowerPlace, lowerIndex, lowerIndex]
    constructor
    · refine ihArray.1.bind fun base base' hBase => ihIndex.2.bind fun i i' hi => .ok ?_
      rw [hBase, hi, Place.rename]
    · refine ihArray.1.bind fun base base' hBase => ihIndex.2.bind fun i i' hi => .ok ?_
      rw [hBase, hi, Index.rename, Place.rename]
  | number span v => exact ⟨.error _, .ok rfl⟩
  | _ => exact ⟨.error _, .error _⟩

theorem reads_place (n : Node) :
    Reads r.toRelabel (fun p q => q = p.rename r.name) (lowerPlace scope n)
      (lowerPlace scope (n.recast r)) :=
  (reads_place_index scope n).1

theorem reads_arith (n : Node) :
    Reads r.toRelabel (fun e e' => e' = e.rename r.name) (lowerArith scope n)
      (lowerArith scope (n.recast r)) := by
  induction n using Node.induction with
  | bool | number | ident => exact .ok rfl
  | subscript span array index =>
    refine (reads_place scope (.subscript span array index)).bind fun p q hpq => .ok ?_
    rw [hpq, Arith.rename]
  | unary span op e ih =>
    rw [Node.recast, lowerArith, lowerArith]
    refine ih.bind fun a b hab => ?_
    rw [hab]
    split
    · exact .ok rfl
    · split
      · exact .ok rfl
      · exact .error _
  | binary span op a b iha ihb =>
    rw [Node.recast, lowerArith, lowerArith]
    split
    · exact .error _
    · refine iha.bind fun e e' he => ihb.bind fun f f' hf => .ok ?_
      rw [he, hf, Arith.rename]
  | _ => exact .error _

theorem reads_text (n : Node) :
    Reads r.toRelabel V.Texts (lowerText scope n) (lowerText scope (n.recast r)) := by
  induction n using Node.induction with
  | bool | number => exact .ok rfl
  | string span s => exact .ok (Reading.texts_text (V.text_eq s))
  | ident span name => exact .ok (Reading.texts_read (.name name))
  | subscript span array index =>
    refine (reads_place scope (.subscript span array index)).bind fun p q hpq => .ok ?_
    rw [hpq]
    exact Reading.texts_read p
  | concat span a b iha ihb =>
    rw [Node.recast, lowerText, lowerText]
    exact iha.bind fun x x' hx => ihb.bind fun y y' hy => .ok (hx.append hy)
  | _ => exact .error _

theorem reads_texts (ns : List Node) :
    Reads r.toRelabel (List.Forall₂ V.Texts) (ns.mapM (lowerText scope))
      ((Node.recastAll r ns).mapM (lowerText scope)) := by
  induction ns with
  | nil => exact .ok .nil
  | cons n rest ih =>
    rw [Node.recastAll, List.mapM_cons, List.mapM_cons]
    exact (reads_text scope n).bind fun x x' hx => ih.bind fun xs xs' hxs => .ok (.cons hx hxs)

theorem reads_compareTexts {m m' : Node} (hSpan : m'.span = r.place m.span) (op : TokenKind)
    (a b : Node) :
    Reads r.toRelabel V.Comparisons (compareTexts scope m op a b)
      (compareTexts scope m' op (a.recast r) (b.recast r)) := by
  unfold compareTexts
  split
  · rw [reject, reject, hSpan]
    exact .error _
  · exact (reads_text scope a).bind fun x x' hx => (reads_text scope b).bind fun y y' hy =>
      .ok (Reading.comparisons_mk _ hx hy)

theorem reads_condition (n : Node) :
    Reads r.toRelabel V.Comparisons (lowerCondition scope n) (lowerCondition scope (n.recast r)) := by
  have hOne : ∀ p : Place, V.Comparisons (isOne (.read p)) (isOne (.read (p.rename r.name))) :=
    fun p => Reading.comparisons_mk .eq (Reading.texts_read p) (Reading.texts_text rfl)
  cases n with
  | strCompare span op a b => exact reads_compareTexts scope rfl op a b
  | binary span op a b =>
    rw [Node.recast, lowerCondition, lowerCondition]
    split
    · exact reads_compareTexts scope rfl op a b
    · exact .error _
  | ident span name => exact .ok (hOne (.name name))
  | subscript span array index =>
    refine (reads_place scope (.subscript span array index)).bind fun p q hpq => .ok ?_
    rw [hpq]
    exact hOne p
  | bool | number => exact .ok rfl
  | _ => exact .error _

theorem reads_elements {elems : List Node} (dst : Place) (position : Nat)
    (h : ∀ e ∈ elems, ∀ dst : Place, Reads r.toRelabel V.Code (lowerAssign scope dst e)
      (lowerAssign scope (dst.rename r.name) (e.recast r))) :
    Reads r.toRelabel V.Code (lowerElements scope dst position elems)
      (lowerElements scope (dst.rename r.name) position (Node.recastAll r elems)) := by
  induction elems generalizing position with
  | nil => exact .ok rfl
  | cons e rest ih =>
    obtain ⟨he, hRest⟩ := List.forall_mem_cons.mp h
    rw [Node.recastAll, lowerElements, lowerElements]
    exact (he _).bind fun a b hab => (ih (position + 1) hRest).bind fun as bs habs =>
      .ok (hab.append habs)

theorem reads_setText (dst : Place) (n : Node) :
    Reads r.toRelabel V.Code
      (do
        let value ← lowerText scope n
        pure [Stmt.setText dst value])
      (do
        let value ← lowerText scope (n.recast r)
        pure [Stmt.setText (dst.rename r.name) value]) :=
  (reads_text scope n).bind fun _ _ h => .ok (Reading.code_setText dst h)

theorem reads_setNumber (dst : Place) (n : Node) :
    Reads r.toRelabel V.Code
      (do
        let e ← lowerArith scope n
        pure [Stmt.setNumber dst e])
      (do
        let e ← lowerArith scope (n.recast r)
        pure [Stmt.setNumber (dst.rename r.name) e]) := by
  refine (reads_arith scope n).bind fun e e' he => .ok ?_
  rw [he]
  exact Reading.code_setNumber dst e

theorem reads_assign (dst : Place) (n : Node) :
    Reads r.toRelabel V.Code (lowerAssign scope dst n)
      (lowerAssign scope (dst.rename r.name) (n.recast r)) := by
  have hText := reads_setText (V := V) scope dst n
  have hNumber := reads_setNumber (V := V) scope dst n
  induction n using Node.induction generalizing dst with
  | list span elems ih =>
    rw [Node.recast, lowerAssign, lowerAssign]
    exact reads_elements scope dst 0 fun e he dst =>
      ih e he dst (reads_setText scope dst e) (reads_setNumber scope dst e)
  | string | strCompare | concat | call | ident | subscript => exact hText
  | bool | number | float | unary | binary => exact hNumber
  | _ => exact .error _

end

section

variable {c c' : Context} (hc : c.Alike c')

include hc

theorem runs_reject {α α' : Type} {R : α → α' → Prop} {m m' : Node}
    (hSpan : m'.span = r.place m.span) (problem : Problem) :
    Runs r.toRelabel R (liftLower (reject c.scope m problem))
      (liftLower (reject c'.scope m' problem)) := by
  rw [reject, reject, hSpan, hc.scope]
  exact runs_throw _

theorem runs_call {span : Span} {m m' callee : Node} (hSpan : m'.span = r.place m.span)
    (args : List Node) :
    Runs r.toRelabel V.Code (lowerCall c span m callee args)
      (lowerCall c' (r.place span) m' (callee.relabel r.toRelabel) (Node.recastAll r args)) := by
  cases callee with
  | ident nameSpan name =>
    rw [Node.relabel, lowerCall, lowerCall, hc.isFunction, hc.scope, hc.function]
    refine (reads_texts (V := V) c.scope args).run.bind fun texts texts' hTexts => ?_
    have hArgs : List.Forall₂ V.Texts ([.text returnRegister] :: [.text frameNumber] :: texts)
        ([.text returnRegister] :: [.text frameNumber] :: texts') :=
      .cons (Reading.texts_text rfl) (.cons (Reading.texts_text rfl) hTexts)
    refine runs_ite (runs_ite ?_ ?_) ?_
    · exact (runs_remark hc _ _ _).bind fun _ _ _ => runs_pure (Reading.code_call _ hArgs)
    · exact runs_pure (Reading.code_call _ hArgs)
    · exact (runs_remark hc _ _ _).bind fun _ _ _ => runs_pure (Reading.code_call _ hTexts)
  | absent => exact runs_throw _
  | _ => exact runs_reject hc hSpan _

theorem runs_statements
    (hns : ∀ n ∈ ns, Runs r.toRelabel V.Code (lowerStatement c n) (lowerStatement c' (n.recast r)))
    (returned : Bool) :
    Runs r.toRelabel V.Code (lowerStatements c returned ns)
      (lowerStatements c' returned (Node.recastAll r ns)) := by
  induction ns generalizing returned with
  | nil => exact runs_pure rfl
  | cons n rest ih =>
    obtain ⟨hn, hRest⟩ := List.forall_mem_cons.mp hns
    rw [Node.recastAll, lowerStatements, lowerStatements, Node.isAbsent_recast, isSilent_recast,
      isReturn_recast, Node.span_recast]
    have hBoth : ∀ returned, Runs r.toRelabel V.Code
        (do
          let first ← lowerStatement c n
          let others ← lowerStatements c returned rest
          pure (first ++ others))
        (do
          let first ← lowerStatement c' (n.recast r)
          let others ← lowerStatements c' returned (Node.recastAll r rest)
          pure (first ++ others)) :=
      fun returned => hn.bind fun a b hab => (ih hRest returned).bind fun as bs habs =>
        runs_pure (hab.append habs)
    refine runs_ite (runs_throw _) (runs_ite ?_ (hBoth _))
    exact (runs_remark hc _ _ _).bind fun _ _ _ => hBoth _

theorem runs_statement (n : Node) :
    Runs r.toRelabel V.Code (lowerStatement c n) (lowerStatement c' (n.recast r)) := by
  induction n using Node.induction with
  | absent => exact runs_pure rfl
  | comment span text =>
    refine runs_pure ?_
    exact congrArg (fun s => [Stmt.comment s]) (V.comment_eq text)
  | block span stmts synthetic ih =>
    rw [Node.recast, lowerStatement, lowerStatement]
    exact runs_statements hc ih false
  | call span callee args =>
    rw [Node.recast, lowerStatement, lowerStatement]
    exact runs_call hc rfl args
  | assign span lhs rhs =>
    rw [Node.recast, lowerStatement, lowerStatement, hc.scope]
    refine (reads_place c.scope lhs).run.bind fun dst dst' hDst => ?_
    rw [hDst]
    exact (reads_assign c.scope dst rhs).run
  | branch span cond thenBody elseBody _ ihThen ihElse =>
    rw [Node.recast, lowerStatement, lowerStatement, hc.scope, Node.isAbsent_recast]
    refine (reads_condition (V := V) c.scope cond).run.bind fun x x' hx => ?_
    refine ihThen.bind fun a a' ha => runs_ite (runs_pure (Reading.code_whenTrue hx ha)) ?_
    exact ihElse.bind fun b b' hb => runs_pure (Reading.code_choose hx ha hb)
  | loop span cond body _ ihBody =>
    rw [Node.recast, lowerStatement, lowerStatement, hc.scope]
    refine runs_newLabel.bind fun label label' hSame => ?_
    rw [hSame]
    refine (reads_condition (V := V) c.scope cond).run.bind fun x x' hx => ihBody.bind fun a a' ha => ?_
    have hBody : V.Code (a ++ [.jump label']) (a' ++ [.jump label']) := ha.append rfl
    have hLabel : V.Code [.label label'] [.label label'] := rfl
    exact runs_pure (hLabel.append (Reading.code_whenTrue hx hBody))
  | ret span e =>
    rw [Node.recast, lowerStatement, lowerStatement, hc.scope, hc.function, Node.isAbsent_recast]
    refine runs_ite (runs_pure rfl) (runs_ite (runs_throw _) ?_)
    exact (reads_assign c.scope (.slot returnSlot) e).run.bind fun a a' ha =>
      runs_pure (ha.append rfl)
  | globals span names =>
    rw [Node.recast, lowerStatement, lowerStatement, hc.function]
    refine runs_ite ?_ (runs_pure rfl)
    exact (runs_remark hc _ _ _).bind fun _ _ _ => runs_pure rfl
  | empty span => exact (runs_remark hc _ _ _).bind fun _ _ _ => runs_pure rfl
  | _ => exact runs_reject hc rfl _

theorem runs_all (ns : List Node) (returned : Bool) :
    Runs r.toRelabel V.Code (lowerStatements c returned ns)
      (lowerStatements c' returned (Node.recastAll r ns)) :=
  runs_statements hc (fun n _ => runs_statement hc n) returned

end

theorem reads_parameterNames {g : Relabel} (params : List Node) :
    Reads g Eq (parameterNames params) (parameterNames (Node.relabelAll g params)) := by
  induction params with
  | nil => exact .ok rfl
  | cons p rest ih =>
    cases p with
    | ident span name =>
      refine ih.bind fun names names' hNames => .ok ?_
      rw [hNames]
    | _ => exact .error _

theorem Reading.Code.inFrame {a b : List Stmt} (h : V.Code a b) :
    (∃ why, inFrame a = .error why ∧ inFrame b = .error why) ∨
      ∃ a' b', inFrame a = .ok a' ∧ inFrame b = .ok b' ∧ V.Code a' b' := by
  have hFramed : (Target.inFrame b).map (recode V.after) =
      (Target.inFrame a).map (recode V.before) := by
    rw [← inFrame_recode, ← inFrame_recode, h]
  cases hb : Target.inFrame b with
  | error why =>
    cases ha : Target.inFrame a with
    | error why' =>
      rw [ha, hb] at hFramed
      cases hFramed
      exact .inl ⟨why, rfl, rfl⟩
    | ok a' =>
      rw [ha, hb] at hFramed
      cases hFramed
  | ok b' =>
    cases ha : Target.inFrame a with
    | error why =>
      rw [ha, hb] at hFramed
      cases hFramed
    | ok a' =>
      rw [ha, hb] at hFramed
      exact .inr ⟨a', b', rfl, rfl, Except.ok.inj hFramed⟩

def Reading.Functions (V : Reading r) (name : String) (params : List Node) (a b : List Stmt) : Prop :=
  ∃ names body body', parameterNames params = .ok names ∧ a = assemble name names body ∧
    b = assemble name names body' ∧ V.Code body body'

section

variable {c c' : Context} (hc : c.Alike c')

include hc

theorem runs_function (span : Span) (name : String) (params : List Node) (body : Node) :
    Runs r.toRelabel (V.Functions name params) (lowerFunction c span name params body)
      (lowerFunction c' (r.place span) name (Node.relabelAll r.toRelabel params)
        (body.recast r)) := by
  have hIsSome : (c'.table.functionScope? name).isSome = (c.table.functionScope? name).isSome :=
    hc.isFunction name
  unfold lowerFunction
  cases hScope : c.table.functionScope? name with
  | none =>
    rw [hScope, Option.isSome_none, Option.isSome_eq_false_iff, Option.isNone_iff_eq_none] at hIsSome
    rw [hIsSome]
    exact runs_throw _
  | some scope =>
    rw [hScope] at hIsSome
    obtain ⟨scope', hScope'⟩ := Option.isSome_iff_exists.mp hIsSome
    rw [hScope']
    have hName : scope'.name = scope.name := (ScopeTable.name_of_functionScope? hScope').trans
      (ScopeTable.name_of_functionScope? hScope).symm
    have hInner : Context.Alike { c with scope := scope.name, function := name }
        { c' with scope := scope'.name, function := name } :=
      ⟨hc.settings, hc.functions, hName, rfl⟩
    refine (runs_statement (V := V) hInner body).bind fun stmts stmts' hStmts => ?_
    rcases hStmts.inFrame with ⟨why, hFrame, hFrame'⟩ | ⟨code, code', hFrame, hFrame', hCode⟩
    · rw [hFrame, hFrame']
      exact runs_throw _
    · rw [hFrame, hFrame']
      refine (reads_parameterNames params).result.run.bind fun names names' hNames => runs_pure ?_
      exact ⟨names, code, code', hNames.2, rfl, by rw [hNames.1], hCode⟩

end

/-- Two pieces of code consist of parts, one for each function, that are related by `P`. -/
inductive PartByPart (P : String → List Stmt → List Stmt → Prop) :
    List String → List Stmt → List Stmt → Prop where
  | nil : PartByPart P [] [] []
  | cons {name names a b as bs} (hPart : P name a b) (hRest : PartByPart P names as bs) :
      PartByPart P (name :: names) (a ++ as) (b ++ bs)

section

variable {g : Relabel} {c c' : Context} {P : String → List Stmt → List Stmt → Prop}

def RunFunctions (g : Relabel) (P : String → List Stmt → List Stmt → Prop) (c c' : Context)
    (n n' : Node) : Prop :=
  ∃ span name params body span' params' body', n = .func span name params body ∧
    n' = .func span' name params' body' ∧
    Runs g (P name) (lowerFunction c span name params body)
      (lowerFunction c' span' name params' body')

theorem runs_functions (h : List.Forall₂ (RunFunctions g P c c') ns ns') :
    Runs g (PartByPart P (ScopeTable.declaredFunctions ns)) (lowerFunctions c ns)
      (lowerFunctions c' ns') := by
  induction h with
  | nil => exact runs_pure .nil
  | cons hFirst _ ih =>
    obtain ⟨span, name, params, body, span', params', body', rfl, rfl, hRun⟩ := hFirst
    rw [lowerFunctions, lowerFunctions]
    exact hRun.bind fun a b hab => ih.bind fun as bs habs => runs_pure (.cons hab habs)

theorem runs_items {R S : List Stmt → List Stmt → Prop}
    (hAbsent : ns'.any Node.isAbsent = ns.any Node.isAbsent)
    (hStmts : Runs g R (lowerStatements c false (ns.filter fun n => !n.isFunc))
      (lowerStatements c' false (ns'.filter fun n => !n.isFunc)))
    (hFuncs : Runs g S (lowerFunctions c (ns.filter Node.isFunc))
      (lowerFunctions c' (ns'.filter Node.isFunc))) :
    Runs g (fun p q => ∃ a b a' b', p = setup ++ a ++ b ∧ q = setup ++ a' ++ b' ∧ R a a' ∧ S b b')
      (lowerItems c ns) (lowerItems c' ns') := by
  unfold lowerItems
  rw [hAbsent]
  refine runs_ite (runs_throw _) (hStmts.bind fun a a' ha => hFuncs.bind fun b b' hb => ?_)
  exact runs_pure ⟨a, b, a', b', rfl, rfl, ha, hb⟩

end

end BatchCompiler.Lowering
