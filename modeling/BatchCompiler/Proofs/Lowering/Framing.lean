import BatchCompiler.Proofs.Lowering.Statements

/-!
# Moving lowered code into a frame

Moving code into the frame of a call fails only if a part of the code is missing. Lowering leaves out
no part, so what it makes of a function body can always be moved.
-/

namespace BatchCompiler.Target

def Place.framed : Place → Place
  | .name n => .item (.name n) frameIndex
  | .item base index => .item base.framed index
  | p => p

def Arith.framed : Arith → Arith
  | .read p => .read p.framed
  | .unary op e => .unary op e.framed
  | .binary op l r => .binary op l.framed r.framed
  | e => e

def Fragment.framed : Fragment → Fragment
  | .read p => .read p.framed
  | f => f

def Comparison.framed (c : Comparison) : Comparison where
  op := c.op
  left := c.left.map Fragment.framed
  right := c.right.map Fragment.framed

mutual

def Stmt.framed : Stmt → Stmt
  | .setText dst value => .setText dst.framed (value.map Fragment.framed)
  | .setNumber dst e => .setNumber dst.framed e.framed
  | .call callee args => .call callee.framed (args.map (List.map Fragment.framed))
  | .whenTrue c body => .whenTrue c.framed (framed body)
  | .choose c t e => .choose c.framed (framed t) (framed e)
  | s => s

/-- What `inFrame` makes of code that misses no part. -/
def framed : List Stmt → List Stmt
  | [] => []
  | s :: rest => s.framed :: framed rest

end

theorem framed_append (a b : List Stmt) : framed (a ++ b) = framed a ++ framed b := by
  induction a with
  | nil => rfl
  | cons s rest ih => rw [List.cons_append, framed, framed, ih, List.cons_append]

theorem of_bind_eq_ok {ε α β : Type} {x : Except ε α} {k : α → Except ε β} {a : α} {b : β}
    (hx : ∀ a', x = .ok a' → a' = a) (h : (x >>= k) = .ok b) : k a = .ok b := by
  obtain ⟨a', ha, h⟩ := Lowering.exists_of_bind_eq_ok h
  exact hx a' ha ▸ h

theorem Place.eq_framed : (p : Place) → ∀ q, p.inFrame = .ok q → q = p.framed
  | .absent, _, h => nomatch h
  | .name _, _, rfl | .slot _, _, rfl => rfl
  | .item base _, _, h => by
    cases of_bind_eq_ok base.eq_framed h
    rfl

theorem Arith.eq_framed : (e : Arith) → ∀ e', e.inFrame = .ok e' → e' = e.framed
  | .absent, _, h => nomatch h
  | .int _, _, rfl => rfl
  | .read p, _, h => by
    cases of_bind_eq_ok p.eq_framed h
    rfl
  | .unary _ e, _, h => by
    cases of_bind_eq_ok e.eq_framed h
    rfl
  | .binary _ l r, _, h => by
    replace h := of_bind_eq_ok l.eq_framed h
    cases of_bind_eq_ok r.eq_framed h
    rfl

theorem Fragment.eq_framed : (f : Fragment) → ∀ f', f.inFrame = .ok f' → f' = f.framed
  | .absent, _, h => nomatch h
  | .text _, _, rfl => rfl
  | .read p, _, h => by
    cases of_bind_eq_ok p.eq_framed h
    rfl

theorem eq_map_of_mapM {ε α : Type} {f : α → Except ε α} {g : α → α}
    (hf : ∀ a a', f a = .ok a' → a' = g a) : (as : List α) → ∀ bs, as.mapM f = .ok bs → bs = as.map g
  | [], _, h => by
    cases h
    rfl
  | a :: rest, _, h => by
    rw [List.mapM_cons] at h
    replace h := of_bind_eq_ok (hf a) h
    cases of_bind_eq_ok (eq_map_of_mapM hf rest) h
    rfl

theorem eq_map_framed (fs : List Fragment) :
    ∀ fs', fs.mapM Fragment.inFrame = .ok fs' → fs' = fs.map Fragment.framed :=
  eq_map_of_mapM Fragment.eq_framed fs

theorem Comparison.eq_framed (c : Comparison) (c' : Comparison) (h : c.inFrame = .ok c') :
    c' = c.framed := by
  replace h := of_bind_eq_ok (eq_map_framed c.left) h
  cases of_bind_eq_ok (eq_map_framed c.right) h
  rfl

mutual

theorem Stmt.eq_framed : (s : Stmt) → ∀ s', s.inFrame = .ok s' → s' = s.framed
  | .absent, _, h => nomatch h
  | .raw _, _, rfl | .comment _, _, rfl | .label _, _, rfl | .jump _, _, rfl => rfl
  | .setText dst value, _, h => by
    replace h := of_bind_eq_ok dst.eq_framed h
    cases of_bind_eq_ok (eq_map_framed value) h
    rfl
  | .setNumber dst e, _, h => by
    replace h := of_bind_eq_ok dst.eq_framed h
    cases of_bind_eq_ok e.eq_framed h
    rfl
  | .call callee args, _, h => by
    replace h := of_bind_eq_ok (eq_map_of_mapM eq_map_framed args) h
    cases of_bind_eq_ok callee.eq_framed h
    rfl
  | .whenTrue c body, _, h => by
    replace h := of_bind_eq_ok c.eq_framed h
    cases of_bind_eq_ok (eq_framed body) h
    rfl
  | .choose c t e, _, h => by
    replace h := of_bind_eq_ok c.eq_framed h
    replace h := of_bind_eq_ok (eq_framed t) h
    cases of_bind_eq_ok (eq_framed e) h
    rfl

theorem eq_framed : (code : List Stmt) → ∀ code', inFrame code = .ok code' → code' = framed code
  | [], _, rfl => rfl
  | s :: rest, _, h => by
    replace h := of_bind_eq_ok s.eq_framed h
    cases of_bind_eq_ok (eq_framed rest) h
    rfl

end

end BatchCompiler.Target

namespace BatchCompiler.Lowering

open Target

variable {dst : Place} {name : String} {T : List Stmt}

theorem exists_bind_eq_ok {ε α β : Type} {x : Except ε α} {k : α → Except ε β}
    (hx : ∃ a, x = .ok a) (hk : ∀ a, ∃ b, k a = .ok b) : ∃ b, (x >>= k) = .ok b := by
  obtain ⟨a, rfl⟩ := hx
  exact hk a

theorem exists_mapM_eq_ok {ε α β : Type} {f : α → Except ε β} {as : List α}
    (h : ∀ a ∈ as, ∃ b, f a = .ok b) : ∃ bs, as.mapM f = .ok bs := by
  induction as with
  | nil => exact ⟨[], rfl⟩
  | cons a rest ih =>
    rw [List.mapM_cons]
    refine exists_bind_eq_ok (h a List.mem_cons_self) fun b => ?_
    exact exists_bind_eq_ok (ih fun x hx => h x (List.mem_cons_of_mem a hx)) fun bs => ⟨b :: bs, rfl⟩

section

variable {scope : String}

variable {n : Node} {p : Place} {c : Comparison}

theorem PlaceFor.exists_inFrame (h : PlaceFor n p) : ∃ p', p.inFrame = .ok p' := by
  induction h with
  | name span name => exact ⟨_, rfl⟩
  | item hBase ih | itemRead hBase hIndex ih => exact exists_bind_eq_ok ih fun _ => ⟨_, rfl⟩

theorem ArithFor.exists_inFrame {e : Arith} (h : ArithFor n e) : ∃ e', e.inFrame = .ok e' := by
  induction h with
  | bool | number => exact ⟨_, rfl⟩
  | read h => exact exists_bind_eq_ok h.exists_inFrame fun _ => ⟨_, rfl⟩
  | plus h ih => exact ih
  | unary hOp h ih => exact exists_bind_eq_ok ih fun _ => ⟨_, rfl⟩
  | binary hOp hl hr ihl ihr =>
    exact exists_bind_eq_ok ihl fun _ => exists_bind_eq_ok ihr fun _ => ⟨_, rfl⟩

theorem exists_inFrame_read (h : ∃ p', p.inFrame = .ok p') :
    ∃ f, (Fragment.read p).inFrame = .ok f :=
  exists_bind_eq_ok h fun _ => ⟨_, rfl⟩

theorem TextFor.exists_inFrame {fs : List Fragment} (h : TextFor n fs) :
    ∀ f ∈ fs, ∃ f', f.inFrame = .ok f' := by
  induction h with
  | bool | number | string => exact List.forall_mem_singleton.mpr ⟨_, rfl⟩
  | read h => exact List.forall_mem_singleton.mpr (exists_inFrame_read h.exists_inFrame)
  | concat hl hr ihl ihr => exact List.forall_mem_append.mpr ⟨ihl, ihr⟩

theorem exists_inFrame_comparison (hLeft : ∀ f ∈ c.left, ∃ f', f.inFrame = .ok f')
    (hRight : ∀ f ∈ c.right, ∃ f', f.inFrame = .ok f') : ∃ c', c.inFrame = .ok c' :=
  exists_bind_eq_ok (exists_mapM_eq_ok hLeft) fun _ =>
    exists_bind_eq_ok (exists_mapM_eq_ok hRight) fun _ => ⟨_, rfl⟩

theorem exists_inFrame_isOne {f : Fragment} (h : ∃ f', f.inFrame = .ok f') :
    ∃ c, (isOne f).inFrame = .ok c :=
  exists_inFrame_comparison (List.forall_mem_singleton.mpr h) (List.forall_mem_singleton.mpr ⟨_, rfl⟩)

theorem exists_inFrame_of_lowerCondition (h : lowerCondition scope n = .ok c) :
    ∃ c', c.inFrame = .ok c' := by
  cases conditionFor_of_lowerCondition h with
  | texts hOp hl hr | relation hRelational hOp hl hr =>
    exact exists_inFrame_comparison hl.exists_inFrame hr.exists_inFrame
  | bool | number => exact exists_inFrame_isOne ⟨_, rfl⟩
  | read hPlace => exact exists_inFrame_isOne (exists_inFrame_read hPlace.exists_inFrame)

end

def Framable (stmts : List Stmt) : Prop :=
  ∃ stmts', inFrame stmts = .ok stmts'

theorem framable_nil : Framable [] := ⟨[], rfl⟩

theorem framable_cons {s : Stmt} {rest : List Stmt} (hs : ∃ s', s.inFrame = .ok s')
    (hRest : Framable rest) : Framable (s :: rest) :=
  exists_bind_eq_ok hs fun _ => exists_bind_eq_ok hRest fun _ => ⟨_, rfl⟩

theorem framable_append {a b : List Stmt} (ha : Framable a) (hb : Framable b) :
    Framable (a ++ b) := by
  induction a with
  | nil => exact hb
  | cons s rest ih =>
    obtain ⟨stmts, h⟩ := ha
    obtain ⟨s', hs, h⟩ := exists_of_bind_eq_ok h
    obtain ⟨rest', hRest, _⟩ := exists_of_bind_eq_ok h
    exact framable_cons ⟨s', hs⟩ (ih ⟨rest', hRest⟩)

theorem exists_inFrame_setText {fs : List Fragment} (hDst : ∃ p, dst.inFrame = .ok p)
    (hText : ∀ f ∈ fs, ∃ f', f.inFrame = .ok f') : ∃ s, (Stmt.setText dst fs).inFrame = .ok s :=
  exists_bind_eq_ok hDst fun _ => exists_bind_eq_ok (exists_mapM_eq_ok hText) fun _ => ⟨_, rfl⟩

theorem exists_inFrame_call {args : List (List Fragment)}
    (h : ∀ fs ∈ args, ∀ f ∈ fs, ∃ f', f.inFrame = .ok f') :
    ∃ s, (Stmt.call (.text name) args).inFrame = .ok s :=
  exists_bind_eq_ok (exists_mapM_eq_ok fun fs hfs => exists_mapM_eq_ok (h fs hfs)) fun _ =>
    ⟨_, rfl⟩

theorem framable_of_forall (h : ∀ s ∈ T, ∃ s', s.inFrame = .ok s') : Framable T := by
  induction T with
  | nil => exact framable_nil
  | cons s rest ih =>
    obtain ⟨hs, hRest⟩ := List.forall_mem_cons.mp h
    exact framable_cons hs (ih hRest)

theorem ItemOf.exists_inFrame {p : Place} (h : ItemOf dst p) (hDst : ∃ p, dst.inFrame = .ok p) :
    ∃ p', p.inFrame = .ok p' := by
  induction h with
  | self => exact hDst
  | item position h ih => exact exists_bind_eq_ok ih fun _ => ⟨_, rfl⟩

theorem framable_of_lowerAssign {scope : String} {n : Node} (hDst : ∃ p, dst.inFrame = .ok p)
    (h : lowerAssign scope dst n = .ok T) : Framable T := by
  refine framable_of_forall (forall_of_lowerAssign (G := fun _ => True) (fun _ _ _ _ _ => trivial)
    trivial ?_ ?_ h)
  · intro p n fs hp _ hText
    exact exists_inFrame_setText (hp.exists_inFrame hDst) hText.exists_inFrame
  · intro p n a hp _ hArith
    exact exists_bind_eq_ok (hp.exists_inFrame hDst) fun _ =>
      exists_bind_eq_ok hArith.exists_inFrame fun _ => ⟨_, rfl⟩

theorem exists_inFrame_callStmt {scope : String} {table : ScopeTable} {args : List Node}
    {texts : List (List Fragment)} (h : args.mapM (lowerText scope) = .ok texts) :
    ∃ s, (callStmt table name texts).inFrame = .ok s := by
  have hTexts : ∀ fs ∈ texts, ∀ f ∈ fs, ∃ f', f.inFrame = .ok f' := by
    have hEach := forall₂_of_mapM_lowerText h
    clear h
    induction hEach with
    | nil => exact nofun
    | cons h _ ih => exact List.forall_mem_cons.mpr ⟨h.exists_inFrame, ih⟩
  unfold callStmt
  split
  · apply exists_inFrame_call
    simp only [List.forall_mem_cons]
    exact ⟨⟨⟨_, rfl⟩, nofun⟩, ⟨⟨_, rfl⟩, nofun⟩, hTexts⟩
  · exact exists_inFrame_call hTexts

theorem Lowered.framable {c : Context} {ns : List Node} {k k' : Nat} (h : Lowered c ns k T k') :
    Framable T := by
  induction h with
  | nil => exact framable_nil
  | skip hn h ih => exact ih
  | comment h ih | ret h ih => exact framable_cons ⟨_, rfl⟩ ih
  | block hBody h ihBody ih => exact framable_append ihBody ih
  | call hArgs h ih => exact framable_cons (exists_inFrame_callStmt hArgs) ih
  | assign hLhs hRhs h ih =>
    exact framable_append (framable_of_lowerAssign (placeFor_of_lowerPlace hLhs).exists_inFrame hRhs) ih
  | branch hCond hThen h ihThen ih =>
    refine framable_cons (exists_bind_eq_ok (exists_inFrame_of_lowerCondition hCond) fun c' => ?_) ih
    exact exists_bind_eq_ok ihThen fun body => ⟨_, rfl⟩
  | branchElse hElseBody hCond hThen hElse h ihThen ihElse ih =>
    refine framable_cons (exists_bind_eq_ok (exists_inFrame_of_lowerCondition hCond) fun c' => ?_) ih
    exact exists_bind_eq_ok ihThen fun body => exists_bind_eq_ok ihElse fun other => ⟨_, rfl⟩
  | loop hCond hBody h ihBody ih =>
    refine framable_cons ⟨_, rfl⟩ (framable_cons ?_ ih)
    refine exists_bind_eq_ok (exists_inFrame_of_lowerCondition hCond) fun c' => ?_
    exact exists_bind_eq_ok (framable_append ihBody (framable_cons ⟨_, rfl⟩ framable_nil)) fun body =>
      ⟨_, rfl⟩
  | retValue he hFunction hValue h ih =>
    exact framable_append (framable_of_lowerAssign ⟨_, rfl⟩ hValue) (framable_cons ⟨_, rfl⟩ ih)

end BatchCompiler.Lowering
