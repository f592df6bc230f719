import BatchCompiler.Proofs.Lowering.Framing
import BatchCompiler.Proofs.Syntax.Leaves

/-!
# What code reads and assigns

The places that a statement uses, and the variables that are meant in a store. Lowered code uses the
variables of its source. In the frame of a call every variable is an element that the frame number
selects, except for variables in indices.
-/

namespace BatchCompiler.Target

open Meaning

variable {code : List Stmt} {args : Arguments} {l : Location} {I : Interpretation}

inductive Use where
  | assigned
  | value
  | index
deriving DecidableEq, Repr

mutual

/-- What is read to find out which element is meant. An argument of the call is no variable. -/
def Place.indexPlaces : Place → List Place
  | .item base index => base.indexPlaces ++ index.places
  | _ => []

def Index.places : Index → List Place
  | .read (.slot _) => []
  | .read p => p :: p.indexPlaces
  | _ => []

end

def Place.indexUses (p : Place) : List (Use × Place) :=
  p.indexPlaces.map fun q => (.index, q)

def Place.valueUses : Place → List (Use × Place)
  | .slot _ => []
  | p => (.value, p) :: p.indexUses

def Place.assignedUses (p : Place) : List (Use × Place) :=
  (.assigned, p) :: p.indexUses

def Arith.uses : Arith → List (Use × Place)
  | .read p => p.valueUses
  | .unary _ e => e.uses
  | .binary _ l r => l.uses ++ r.uses
  | _ => []

def Fragment.uses : Fragment → List (Use × Place)
  | .read p => p.valueUses
  | _ => []

def textUses (fs : List Fragment) : List (Use × Place) :=
  fs.flatMap Fragment.uses

def Comparison.uses (c : Comparison) : List (Use × Place) :=
  textUses c.left ++ textUses c.right

mutual

def Stmt.uses : Stmt → List (Use × Place)
  | .setText dst value => dst.assignedUses ++ textUses value
  | .setNumber dst e => dst.assignedUses ++ e.uses
  | .call callee args => callee.uses ++ args.flatMap textUses
  | .whenTrue c body => c.uses ++ usesOf body
  | .choose c thenBody elseBody => c.uses ++ usesOf thenBody ++ usesOf elseBody
  | _ => []

def usesOf : List Stmt → List (Use × Place)
  | [] => []
  | s :: rest => s.uses ++ usesOf rest

end

theorem usesOf_append (a b : List Stmt) : usesOf (a ++ b) = usesOf a ++ usesOf b := by
  induction a with
  | nil => simp [usesOf]
  | cons s rest ih => simp [usesOf, ih]

def Place.base : Place → Place
  | .item base _ => base.base
  | p => p

def Place.Rooted (P : String → Prop) (p : Place) : Prop :=
  ∃ name, p.base = .name name ∧ P name

theorem base_framed : (p : Place) → p.framed.base = p.base
  | .item base _ => base_framed base
  | .absent | .name _ | .slot _ => rfl

theorem head?_indices_framed (args : Arguments) (σ : Store) {name : String} :
    (p : Place) → p.base = .name name →
      (p.framed.location args σ).indices.head? = some (args frameSlot)
  | .item base index, h => by
    have hHead := head?_indices_framed args σ base h
    simp only [Place.framed, Place.location, Location.item, List.head?_append, hHead]
    rfl
  | .name _, _ => rfl
  | .slot _, h | .absent, h => nomatch h

theorem indexPlaces_framed : (p : Place) → p.framed.indexPlaces = p.indexPlaces
  | .item base index => by
    simp only [Place.framed, Place.indexPlaces, indexPlaces_framed base]
  | .name _ => by simp [Place.framed, Place.indexPlaces, frameIndex, Index.places]
  | .slot _ | .absent => rfl

/-- A use in the frame. A variable in an index stays what it was; any other is moved. -/
def movedUse : Use × Place → Use × Place
  | (.index, p) => (.index, p)
  | (u, p) => (u, p.framed)

theorem indexUses_framed (p : Place) : p.framed.indexUses = p.indexUses.map movedUse := by
  simp only [Place.indexUses, indexPlaces_framed, List.map_map]
  rfl

theorem assignedUses_framed (p : Place) :
    p.framed.assignedUses = p.assignedUses.map movedUse := by
  rw [Place.assignedUses, Place.assignedUses, indexUses_framed, List.map_cons, movedUse]
  nofun

theorem valueUses_framed (p : Place) : p.framed.valueUses = p.valueUses.map movedUse := by
  have hUses : (.value, p.framed) :: p.framed.indexUses =
      ((.value, p) :: p.indexUses).map movedUse := by
    rw [indexUses_framed, List.map_cons, movedUse]
    nofun
  cases p with
  | slot => rfl
  | _ => exact hUses

theorem uses_framed_arith (e : Arith) : e.framed.uses = e.uses.map movedUse := by
  induction e with
  | absent | int => rfl
  | read p => exact valueUses_framed p
  | unary op e ih => exact ih
  | binary op l r ihl ihr => simp only [Arith.framed, Arith.uses, List.map_append, ihl, ihr]

theorem uses_framed_fragment (f : Fragment) : f.framed.uses = f.uses.map movedUse := by
  cases f with
  | absent | text => rfl
  | read p => exact valueUses_framed p

theorem textUses_framed (fs : List Fragment) :
    textUses (fs.map Fragment.framed) = (textUses fs).map movedUse := by
  simp only [textUses, List.flatMap_map, List.map_flatMap, uses_framed_fragment]

theorem uses_framed_comparison (c : Comparison) : c.framed.uses = c.uses.map movedUse := by
  simp only [Comparison.framed, Comparison.uses, textUses_framed, List.map_append]

mutual

theorem uses_framed_stmt : (s : Stmt) → s.framed.uses = s.uses.map movedUse
  | .setText dst value => by
    simp only [Stmt.framed, Stmt.uses, assignedUses_framed, textUses_framed, List.map_append]
  | .setNumber dst e => by
    simp only [Stmt.framed, Stmt.uses, assignedUses_framed, uses_framed_arith, List.map_append]
  | .call callee args => by
    simp only [Stmt.framed, Stmt.uses, uses_framed_fragment, List.flatMap_map, textUses_framed,
      List.map_append, List.map_flatMap]
  | .whenTrue c body => by
    simp only [Stmt.framed, Stmt.uses, uses_framed_comparison, usesOf_framed body, List.map_append]
  | .choose c t e => by
    simp only [Stmt.framed, Stmt.uses, uses_framed_comparison, usesOf_framed t, usesOf_framed e,
      List.map_append]
  | .absent | .raw _ | .comment _ | .label _ | .jump _ => rfl

theorem usesOf_framed : (code : List Stmt) → usesOf (framed code) = (usesOf code).map movedUse
  | [] => rfl
  | s :: rest => by
    simp only [framed, usesOf, uses_framed_stmt s, usesOf_framed rest, List.map_append]

end

/-- All variables start with a name that has the property, and only the return register, which is
an argument of the call, is assigned besides. -/
def KeepsTo (P : String → Prop) (uses : List (Use × Place)) : Prop :=
  ∀ u p, (u, p) ∈ uses → p.Rooted P ∨ (u = .assigned ∧ p.base = .slot returnSlot)

section

variable {P : String → Prop}

variable {a b uses : List (Use × Place)} {p : Place}

theorem keepsTo_nil : KeepsTo P [] :=
  fun _ _ h => nomatch h

theorem keepsTo_append (ha : KeepsTo P a) (hb : KeepsTo P b) : KeepsTo P (a ++ b) := by
  intro u p h
  rcases List.mem_append.mp h with h | h
  · exact ha u p h
  · exact hb u p h

theorem keepsTo_indexUses (h : ∀ q ∈ p.indexPlaces, q.Rooted P) : KeepsTo P p.indexUses := by
  intro u q hq
  obtain ⟨r, hr, hEq⟩ := List.mem_map.mp hq
  cases hEq
  exact .inl (h _ hr)

theorem keepsTo_valueUses (hp : p.Rooted P) (h : ∀ q ∈ p.indexPlaces, q.Rooted P) :
    KeepsTo P p.valueUses := by
  have hAll : KeepsTo P ((.value, p) :: p.indexUses) := by
    refine keepsTo_append (a := [(.value, p)]) ?_ (keepsTo_indexUses h)
    intro u q hq
    cases List.mem_singleton.mp hq
    exact .inl hp
  cases p with
  | slot n => exact keepsTo_nil
  | _ => exact hAll

/-- Apart from variables in indices and from the return register, everything is an element that the
frame number selects. -/
def Framed (uses : List (Use × Place)) : Prop :=
  ∀ u p, (u, p) ∈ uses → u ≠ .index → p.base = .slot returnSlot ∨
    ∀ (args : Arguments) (σ : Store), (p.location args σ).indices.head? = some (args frameSlot)

theorem Framed.append (ha : Framed a) (hb : Framed b) : Framed (a ++ b) := by
  intro u p h
  rcases List.mem_append.mp h with h | h
  · exact ha u p h
  · exact hb u p h

theorem KeepsTo.moved (h : KeepsTo P uses) :
    KeepsTo P (uses.map movedUse) ∧ Framed (uses.map movedUse) := by
  constructor
  · intro u q hq
    obtain ⟨⟨v, p⟩, hp, hMoved⟩ := List.mem_map.mp hq
    have hUse := h v p hp
    cases v with
    | index =>
      cases hMoved
      exact hUse
    | assigned | value =>
      cases hMoved
      rwa [Place.Rooted, base_framed]
  · intro u q hq hu
    obtain ⟨⟨v, p⟩, hp, hMoved⟩ := List.mem_map.mp hq
    have hUse := h v p hp
    cases v with
    | index =>
      cases hMoved
      exact absurd rfl hu
    | assigned | value =>
      cases hMoved
      rcases hUse with ⟨name, hBase, -⟩ | ⟨-, hBase⟩
      · exact .inr fun args σ => head?_indices_framed args σ p hBase
      · exact .inl ((base_framed p).trans hBase)

theorem keepsTo_parameterCopies (slot : Int) {params : List String} (h : ∀ x ∈ params, P x) :
    KeepsTo P (usesOf (parameterCopies slot params)) ∧
      Framed (usesOf (parameterCopies slot params)) := by
  induction params generalizing slot with
  | nil => exact ⟨keepsTo_nil, fun _ _ h => nomatch h⟩
  | cons x rest ih =>
    obtain ⟨hKeeps, hFramed⟩ := ih (slot + 1) fun y hy => h y (List.mem_cons_of_mem x hy)
    have hUses : usesOf (parameterCopies slot (x :: rest)) =
        [(.assigned, .item (.name x) frameIndex)] ++ usesOf (parameterCopies (slot + 1) rest) := by
      simp [parameterCopies, usesOf, Stmt.uses, Place.assignedUses, Place.indexUses,
        Place.indexPlaces, frameIndex, Index.places, textUses, Fragment.uses, Place.valueUses]
    rw [hUses]
    constructor
    · refine keepsTo_append (fun u p hp => ?_) hKeeps
      cases List.mem_singleton.mp hp
      exact .inl ⟨x, rfl, h x List.mem_cons_self⟩
    · refine Framed.append (fun u p hp _ => ?_) hFramed
      cases List.mem_singleton.mp hp
      exact .inr fun _ _ => rfl

theorem keepsTo_usesOf {stmts : List Stmt} (h : ∀ s ∈ stmts, KeepsTo P s.uses) :
    KeepsTo P (usesOf stmts) := by
  induction stmts with
  | nil => exact keepsTo_nil
  | cons s rest ih =>
    rw [usesOf]
    exact keepsTo_append (h s List.mem_cons_self) (ih fun x hx => h x (List.mem_cons_of_mem s hx))

end

mutual

theorem Stmt.uses_of_afterLabel? {label : String} : (s : Stmt) → (rest : List Stmt) →
    s.afterLabel? label = some rest → ∀ x ∈ usesOf rest, x ∈ s.uses
  | .label name, rest, h => by
    rw [Stmt.afterLabel?] at h
    split at h
    · cases h
      exact nofun
    · cases h
  | .whenTrue c body, rest, h => fun x hx =>
    List.mem_append_right _ (uses_of_afterLabel? body rest h x hx)
  | .choose c thenBody elseBody, rest, h => by
    intro x hx
    rw [Stmt.afterLabel?] at h
    split at h
    · next inner hThen =>
      cases h
      exact List.mem_append_left _
        (List.mem_append_right _ (uses_of_afterLabel? thenBody rest hThen x hx))
    · exact List.mem_append_right _ (uses_of_afterLabel? elseBody rest h x hx)
  | .absent, _, h | .raw _, _, h | .comment _, _, h | .jump _, _, h | .setText .., _, h
  | .setNumber .., _, h | .call .., _, h => by cases h

theorem uses_of_afterLabel? {label : String} : (code rest : List Stmt) →
    afterLabel? label code = some rest → ∀ x ∈ usesOf rest, x ∈ usesOf code
  | [], _, h => by cases h
  | s :: others, rest, h => by
    intro x hx
    rw [afterLabel?] at h
    split at h
    · next inner hInner =>
      cases h
      rw [usesOf_append] at hx
      rcases List.mem_append.mp hx with hx | hx
      · exact List.mem_append_left _ (s.uses_of_afterLabel? inner hInner x hx)
      · exact List.mem_append_right _ hx
    · exact List.mem_append_right _ (uses_of_afterLabel? others rest h x hx)

end

/-- All that is used at a turn, and by what is run after it, has the property. -/
def UsesOnly (Q : Use × Place → Prop) : Move → Prop
  | .stop => True
  | .go code => ∀ x ∈ usesOf code, Q x
  | .act s code => (∀ x ∈ s.uses, Q x) ∧ ∀ x ∈ usesOf code, Q x
  | .test cond yes no => (∀ x ∈ cond.uses, Q x) ∧ (∀ x ∈ usesOf yes, Q x) ∧ ∀ x ∈ usesOf no, Q x

theorem usesOnly_move {Q : Use × Place → Prop} {p : List Stmt} (hp : ∀ x ∈ usesOf p, Q x)
    (h : ∀ x ∈ usesOf code, Q x) : UsesOnly Q (move p code) := by
  cases code with
  | nil => trivial
  | cons s rest =>
    obtain ⟨hFirst, hRest⟩ := List.forall_mem_append.mp h
    cases s with
    | jump target =>
      simp only [move, moveBy]
      split
      · trivial
      · split
        · next code hLabel => exact fun x hx => hp x (uses_of_afterLabel? p code hLabel x hx)
        · trivial
    | whenTrue c body =>
      obtain ⟨hCond, hBody⟩ := List.forall_mem_append.mp hFirst
      refine ⟨hCond, ?_, hRest⟩
      rw [usesOf_append]
      exact List.forall_mem_append.mpr ⟨hBody, hRest⟩
    | choose c thenBody elseBody =>
      obtain ⟨hFirst, hElse⟩ := List.forall_mem_append.mp hFirst
      obtain ⟨hCond, hThen⟩ := List.forall_mem_append.mp hFirst
      refine ⟨hCond, ?_, ?_⟩
      · rw [usesOf_append]
        exact List.forall_mem_append.mpr ⟨hThen, hRest⟩
      · rw [usesOf_append]
        exact List.forall_mem_append.mpr ⟨hElse, hRest⟩
    | setText | setNumber | call | raw => exact ⟨hFirst, hRest⟩
    | absent | comment | label => exact hRest

def Spares (args : Arguments) (l : Location) (code : List Stmt) : Prop :=
  ∀ p, (.assigned, p) ∈ usesOf code → ∀ σ, p.location args σ ≠ l

theorem Spares.mono {code' : List Stmt} (h : Spares args l code)
    (hUses : ∀ x ∈ usesOf code', x ∈ usesOf code) : Spares args l code' :=
  fun p hp => h p (hUses _ hp)

end BatchCompiler.Target

namespace BatchCompiler.Lowering

open Target

variable {P : Leaf → Prop} {scope : String}

variable {n : Node} {p dst : Place} {c : Comparison} {ns : List Node} {texts : List (List Fragment)}

theorem PlaceFor.rooted (hn : n.EveryLeaf P) (h : PlaceFor n p) :
    p.Rooted (P ∘ Leaf.name) ∧ ∀ q ∈ p.indexPlaces, q.Rooted (P ∘ Leaf.name) := by
  induction h with
  | name span name => exact ⟨⟨name, rfl, Node.everyLeaf_ident_iff.mp hn⟩, nofun⟩
  | item hBase ih =>
    obtain ⟨hRoot, hPlaces⟩ := ih (Node.everyLeaf_subscript_iff.mp hn).1
    exact ⟨hRoot, List.forall_mem_append.mpr ⟨hPlaces, nofun⟩⟩
  | itemRead hBase hIndex ihBase ihIndex =>
    obtain ⟨hArray, hLeaves⟩ := Node.everyLeaf_subscript_iff.mp hn
    obtain ⟨hRoot, hPlaces⟩ := ihBase hArray
    refine ⟨hRoot, List.forall_mem_append.mpr ⟨hPlaces, ?_⟩⟩
    have hRead := List.forall_mem_cons.mpr (ihIndex hLeaves)
    cases hIndex <;> exact hRead

theorem PlaceFor.keepsTo (hn : n.EveryLeaf P) (h : PlaceFor n p) :
    KeepsTo (P ∘ Leaf.name) p.valueUses :=
  keepsTo_valueUses (h.rooted hn).1 (h.rooted hn).2

theorem ArithFor.keepsTo {a : Arith} (hn : n.EveryLeaf P) (h : ArithFor n a) :
    KeepsTo (P ∘ Leaf.name) a.uses := by
  induction h with
  | bool | number => exact keepsTo_nil
  | read h => exact h.keepsTo hn
  | plus h ih | unary hOp h ih => exact ih (Node.everyLeaf_unary_iff.mp hn)
  | binary hOp hl hr ihl ihr =>
    obtain ⟨hLeft, hRight⟩ := Node.everyLeaf_binary_iff.mp hn
    exact keepsTo_append (ihl hLeft) (ihr hRight)

theorem TextFor.keepsTo {fs : List Fragment} (hn : n.EveryLeaf P) (h : TextFor n fs) :
    KeepsTo (P ∘ Leaf.name) (textUses fs) := by
  induction h with
  | bool | number | string => exact keepsTo_nil
  | read h => exact keepsTo_append (h.keepsTo hn) keepsTo_nil
  | concat hl hr ihl ihr =>
    obtain ⟨hLeft, hRight⟩ := Node.everyLeaf_concat_iff.mp hn
    rw [textUses, List.flatMap_append]
    exact keepsTo_append (ihl hLeft) (ihr hRight)

theorem keepsTo_of_lowerCondition (hn : n.EveryLeaf P) (h : lowerCondition scope n = .ok c) :
    KeepsTo (P ∘ Leaf.name) c.uses := by
  cases conditionFor_of_lowerCondition h with
  | texts hOp hl hr =>
    obtain ⟨hLeft, hRight⟩ := Node.everyLeaf_strCompare_iff.mp hn
    exact keepsTo_append (hl.keepsTo hLeft) (hr.keepsTo hRight)
  | relation hRelational hOp hl hr =>
    obtain ⟨hLeft, hRight⟩ := Node.everyLeaf_binary_iff.mp hn
    exact keepsTo_append (hl.keepsTo hLeft) (hr.keepsTo hRight)
  | read hPlace => exact keepsTo_append (keepsTo_append (hPlace.keepsTo hn) keepsTo_nil) keepsTo_nil
  | bool | number => exact keepsTo_nil

theorem keepsTo_of_mapM_lowerText (hns : ∀ n ∈ ns, n.EveryLeaf P)
    (h : ns.mapM (lowerText scope) = .ok texts) :
    KeepsTo (P ∘ Leaf.name) (texts.flatMap textUses) := by
  have hEach := forall₂_of_mapM_lowerText h
  clear h
  induction hEach with
  | nil => exact keepsTo_nil
  | cons h _ ih =>
    obtain ⟨hn, hRest⟩ := List.forall_mem_cons.mp hns
    rw [List.flatMap_cons]
    exact keepsTo_append (h.keepsTo hn) (ih hRest)

theorem keepsTo_callStmt {table : ScopeTable} {name : String}
    (h : KeepsTo (P ∘ Leaf.name) (texts.flatMap textUses)) :
    KeepsTo (P ∘ Leaf.name) (callStmt table name texts).uses := by
  unfold callStmt
  split <;> exact h

theorem ItemOf.base_indexPlaces (h : ItemOf dst p) :
    p.base = dst.base ∧ p.indexPlaces = dst.indexPlaces := by
  induction h with
  | self => exact ⟨rfl, rfl⟩
  | item position h ih =>
    refine ⟨ih.1, ?_⟩
    simp only [Place.indexPlaces, ih.2, Index.places, List.append_nil]

theorem keepsTo_of_lowerAssign {A : List Stmt} (hn : n.EveryLeaf P)
    (hBase : dst.Rooted (P ∘ Leaf.name) ∨ dst.base = .slot returnSlot)
    (hIndices : ∀ q ∈ dst.indexPlaces, q.Rooted (P ∘ Leaf.name))
    (h : lowerAssign scope dst n = .ok A) : KeepsTo (P ∘ Leaf.name) (usesOf A) := by
  have hDst : ∀ p, ItemOf dst p → KeepsTo (P ∘ Leaf.name) p.assignedUses := by
    intro p hp
    obtain ⟨hpBase, hpIndices⟩ := hp.base_indexPlaces
    refine keepsTo_append (a := [(.assigned, p)]) ?_ (keepsTo_indexUses (by rwa [hpIndices]))
    intro u q hq
    cases List.mem_singleton.mp hq
    rw [Place.Rooted, hpBase]
    exact hBase.imp_right fun hSlot => ⟨rfl, hSlot⟩
  refine keepsTo_usesOf (forall_of_lowerAssign (G := Node.EveryLeaf P)
    (fun span elems e hList he => Node.everyLeaf_list_iff.mp hList e he) hn ?_ ?_ h)
  · intro p n fs hp hn hfs
    exact keepsTo_append (hDst p hp) (hfs.keepsTo hn)
  · intro p n a hp hn ha
    exact keepsTo_append (hDst p hp) (ha.keepsTo hn)

theorem Lowered.keepsTo {c : Context} {k k' : Nat} {T : List Stmt} (h : Lowered c ns k T k')
    (hns : ∀ n ∈ ns, n.EveryLeaf P) : KeepsTo (P ∘ Leaf.name) (usesOf T) := by
  induction h with
  | nil => exact keepsTo_nil
  | skip hn h ih | comment h ih | ret h ih => exact ih fun x hx => hns x (List.mem_cons_of_mem _ hx)
  | block hBody h ihBody ih =>
    rw [usesOf_append]
    exact keepsTo_append (ihBody (Node.everyLeaf_block_iff.mp (hns _ List.mem_cons_self)))
      (ih fun x hx => hns x (List.mem_cons_of_mem _ hx))
  | call hArgs h ih =>
    have hCall := (Node.everyLeaf_call_iff.mp (hns _ List.mem_cons_self)).2
    exact keepsTo_append (keepsTo_callStmt (keepsTo_of_mapM_lowerText hCall hArgs))
      (ih fun x hx => hns x (List.mem_cons_of_mem _ hx))
  | assign hLhs hRhs h ih =>
    obtain ⟨hPlace, hValue⟩ := Node.everyLeaf_assign_iff.mp (hns _ List.mem_cons_self)
    obtain ⟨hRoot, hIndices⟩ := (placeFor_of_lowerPlace hLhs).rooted hPlace
    rw [usesOf_append]
    exact keepsTo_append (keepsTo_of_lowerAssign hValue (.inl hRoot) hIndices hRhs)
      (ih fun x hx => hns x (List.mem_cons_of_mem _ hx))
  | branch hCond hThen h ihThen ih =>
    obtain ⟨hTest, hBody, _⟩ := Node.everyLeaf_branch_iff.mp (hns _ List.mem_cons_self)
    exact keepsTo_append
      (keepsTo_append (keepsTo_of_lowerCondition hTest hCond) (ihThen (by simpa using hBody)))
      (ih fun x hx => hns x (List.mem_cons_of_mem _ hx))
  | branchElse hElseBody hCond hThen hElse h ihThen ihElse ih =>
    obtain ⟨hTest, hBody, hOther⟩ := Node.everyLeaf_branch_iff.mp (hns _ List.mem_cons_self)
    exact keepsTo_append
      (keepsTo_append
        (keepsTo_append (keepsTo_of_lowerCondition hTest hCond) (ihThen (by simpa using hBody)))
        (ihElse (by simpa using hOther)))
      (ih fun x hx => hns x (List.mem_cons_of_mem _ hx))
  | loop hCond hBody h ihBody ih =>
    obtain ⟨hTest, hRound⟩ := Node.everyLeaf_loop_iff.mp (hns _ List.mem_cons_self)
    refine keepsTo_append (a := []) keepsTo_nil (keepsTo_append ?_
      (ih fun x hx => hns x (List.mem_cons_of_mem _ hx)))
    refine keepsTo_append (keepsTo_of_lowerCondition hTest hCond) ?_
    rw [usesOf_append]
    exact keepsTo_append (ihBody (by simpa using hRound)) keepsTo_nil
  | retValue he hFunction hValue h ih =>
    have hNames := Node.everyLeaf_ret_iff.mp (hns _ List.mem_cons_self)
    have hIndices : (Place.slot returnSlot).indexPlaces = [] := rfl
    rw [usesOf_append]
    exact keepsTo_append
      (keepsTo_of_lowerAssign hNames (.inr rfl) (by rw [hIndices]; exact nofun) hValue)
      (keepsTo_append (a := []) keepsTo_nil (ih fun x hx => hns x (List.mem_cons_of_mem _ hx)))

end BatchCompiler.Lowering
