import BatchCompiler.Lowering.Statement
import BatchCompiler.Proofs.Meaning.Target
import BatchCompiler.Proofs.Meaning.Tree
import BatchCompiler.Proofs.Syntax.Induction
import BatchCompiler.Proofs.Text.Spelling

/-!
# The values of lowered expressions

Whatever an expression is lowered to has the value of the expression, in every store.
-/

namespace BatchCompiler.Lowering

open Target Meaning

variable {scope : String} {n : Node} {p dst : Place} {op : TokenKind} {I : Interpretation}
  {A : List Stmt} {texts : List (List Fragment)} {c : Comparison}

theorem exists_of_bind_eq_ok {ε α β : Type} {x : Except ε α} {f : α → Except ε β} {b : β}
    (h : (x >>= f) = .ok b) : ∃ a, x = .ok a ∧ f a = .ok b := by
  cases x with
  | error e => cases h
  | ok a => exact ⟨a, rfl, h⟩

inductive PlaceFor : Node → Place → Prop where
  | name (span : Span) (name : String) : PlaceFor (.ident span name) (.name name)
  | item {span span' : Span} {array : Node} {base : Place} {v : Int64} (hBase : PlaceFor array base) :
    PlaceFor (.subscript span array (.number span' v)) (.item base (.int v))
  | itemRead {span : Span} {array index : Node} {base p : Place} (hBase : PlaceFor array base)
    (hIndex : PlaceFor index p) : PlaceFor (.subscript span array index) (.item base (.read p))

inductive ArithFor : Node → Arith → Prop where
  | bool (span : Span) (v : Bool) : ArithFor (.bool span v) (.int (truthNumber v))
  | number (span : Span) (v : Int64) : ArithFor (.number span v) (.int v)
  | read {n : Node} {p : Place} (h : PlaceFor n p) : ArithFor n (.read p)
  | plus {span : Span} {e : Node} {a : Arith} (h : ArithFor e a) : ArithFor (.unary span .plus e) a
  | unary {span : Span} {op : TokenKind} {o : Op} {e : Node} {a : Arith}
    (hOp : unaryOp? op = some o) (h : ArithFor e a) : ArithFor (.unary span op e) (.unary o a)
  | binary {span : Span} {op : TokenKind} {o : Op} {l r : Node} {a b : Arith}
    (hOp : arithOp? op = some o) (hl : ArithFor l a) (hr : ArithFor r b) :
    ArithFor (.binary span op l r) (.binary o a b)

inductive TextFor : Node → List Fragment → Prop where
  | bool (span : Span) (v : Bool) :
    TextFor (.bool span v) [.text (Number.intText (truthNumber v).toInt)]
  | number (span : Span) (v : Int64) : TextFor (.number span v) [.text (Number.intText v.toInt)]
  | string (span : Span) (v : String) : TextFor (.string span v) [.text v]
  | read {n : Node} {p : Place} (h : PlaceFor n p) : TextFor n [.read p]
  | concat {span : Span} {l r : Node} {fs gs : List Fragment} (hl : TextFor l fs)
    (hr : TextFor r gs) : TextFor (.concat span l r) (fs ++ gs)

inductive ConditionFor : Node → Comparison → Prop where
  | texts {span : Span} {op : TokenKind} {o : CmpOp} {l r : Node} {left right : List Fragment}
    (hOp : cmpOp? op = some o) (hl : TextFor l left) (hr : TextFor r right) :
    ConditionFor (.strCompare span op l r) ⟨o, left, right⟩
  | relation {span : Span} {op : TokenKind} {o : CmpOp} {l r : Node} {left right : List Fragment}
    (hRelational : op.isRelational = true) (hOp : cmpOp? op = some o) (hl : TextFor l left)
    (hr : TextFor r right) : ConditionFor (.binary span op l r) ⟨o, left, right⟩
  | read {n : Node} {p : Place} (h : PlaceFor n p) : ConditionFor n (isOne (.read p))
  | bool (span : Span) (v : Bool) : ConditionFor (.bool span v) (constantCondition v)
  | number (span : Span) (v : Int64) : ConditionFor (.number span v) (constantCondition (v = 1))

theorem placeFor_subscript {span : Span} {array index : Node} {base : Place} {i : Index}
    (hBase : PlaceFor array base)
    (hIndex : (∃ span' v, index = .number span' v ∧ i = .int v) ∨
      ∃ q, PlaceFor index q ∧ i = .read q) :
    PlaceFor (.subscript span array index) (.item base i) := by
  rcases hIndex with ⟨span', v, rfl, rfl⟩ | ⟨q, hq, rfl⟩
  · exact .item hBase
  · exact .itemRead hBase hq

theorem lowerPlace_lowerIndex (scope : String) (n : Node) :
    (∀ p, lowerPlace scope n = .ok p → PlaceFor n p) ∧ ∀ i, lowerIndex scope n = .ok i →
      (∃ span v, n = .number span v ∧ i = .int v) ∨ ∃ q, PlaceFor n q ∧ i = .read q := by
  induction n using Node.induction with
  | ident span name =>
    constructor
    · rintro p ⟨⟩
      exact .name span name
    · rintro i ⟨⟩
      exact .inr ⟨_, .name span name, rfl⟩
  | subscript span array index ihArray ihIndex =>
    constructor
    · intro p h
      rw [lowerPlace] at h
      obtain ⟨base, hBase, h⟩ := exists_of_bind_eq_ok h
      obtain ⟨i, hIndex, h⟩ := exists_of_bind_eq_ok h
      cases h
      exact placeFor_subscript (ihArray.1 base hBase) (ihIndex.2 i hIndex)
    · intro i h
      rw [lowerIndex] at h
      obtain ⟨base, hBase, h⟩ := exists_of_bind_eq_ok h
      obtain ⟨j, hIndex, h⟩ := exists_of_bind_eq_ok h
      cases h
      exact .inr ⟨_, placeFor_subscript (ihArray.1 base hBase) (ihIndex.2 j hIndex), rfl⟩
  | number span v =>
    refine ⟨nofun, ?_⟩
    rintro i ⟨⟩
    exact .inl ⟨span, v, rfl, rfl⟩
  | _ => exact ⟨nofun, nofun⟩

theorem placeFor_of_lowerPlace (h : lowerPlace scope n = .ok p) : PlaceFor n p :=
  (lowerPlace_lowerIndex scope n).1 p h

theorem arithFor_of_lowerArith {a : Arith} (h : lowerArith scope n = .ok a) : ArithFor n a := by
  induction n using Node.induction generalizing a with
  | bool span v =>
    cases h
    exact .bool span v
  | number span v =>
    cases h
    exact .number span v
  | ident span name =>
    cases h
    exact .read (.name span name)
  | subscript span array index =>
    rw [lowerArith] at h
    obtain ⟨p, hPlace, h⟩ := exists_of_bind_eq_ok h
    cases h
    exact .read (placeFor_of_lowerPlace hPlace)
  | unary span op e ih =>
    rw [lowerArith] at h
    obtain ⟨e', he, h⟩ := exists_of_bind_eq_ok h
    split at h
    · next hOp =>
      cases h
      exact hOp ▸ .plus (ih he)
    · split at h
      · next o hOp =>
        cases h
        exact .unary hOp (ih he)
      · cases h
  | binary span op l r ihl ihr =>
    rw [lowerArith] at h
    split at h
    · cases h
    · next o hOp =>
      obtain ⟨l', hl, h⟩ := exists_of_bind_eq_ok h
      obtain ⟨r', hr, h⟩ := exists_of_bind_eq_ok h
      cases h
      exact .binary hOp (ihl hl) (ihr hr)
  | _ => cases h

theorem textFor_of_lowerText {fs : List Fragment} (h : lowerText scope n = .ok fs) :
    TextFor n fs := by
  induction n using Node.induction generalizing fs with
  | bool span v =>
    cases h
    exact .bool span v
  | number span v =>
    cases h
    exact .number span v
  | string span v =>
    cases h
    exact .string span v
  | ident span name =>
    cases h
    exact .read (.name span name)
  | subscript span array index =>
    rw [lowerText] at h
    obtain ⟨p, hPlace, h⟩ := exists_of_bind_eq_ok h
    cases h
    exact .read (placeFor_of_lowerPlace hPlace)
  | concat span l r ihl ihr =>
    rw [lowerText] at h
    obtain ⟨l', hl, h⟩ := exists_of_bind_eq_ok h
    obtain ⟨r', hr, h⟩ := exists_of_bind_eq_ok h
    cases h
    exact .concat (ihl hl) (ihr hr)
  | _ => cases h

theorem forall₂_of_mapM_lowerText {ns : List Node} (h : ns.mapM (lowerText scope) = .ok texts) :
    List.Forall₂ TextFor ns texts := by
  induction ns generalizing texts with
  | nil =>
    cases h
    exact .nil
  | cons n rest ih =>
    rw [List.mapM_cons] at h
    obtain ⟨first, hFirst, h⟩ := exists_of_bind_eq_ok h
    obtain ⟨others, hOthers, h⟩ := exists_of_bind_eq_ok h
    cases h
    exact .cons (textFor_of_lowerText hFirst) (ih hOthers)

theorem textFor_of_compareTexts {l r : Node} (h : compareTexts scope n op l r = .ok c) :
    cmpOp? op = some c.op ∧ TextFor l c.left ∧ TextFor r c.right := by
  unfold compareTexts at h
  split at h
  · cases h
  · next o hOp =>
    obtain ⟨left, hLeft, h⟩ := exists_of_bind_eq_ok h
    obtain ⟨right, hRight, h⟩ := exists_of_bind_eq_ok h
    cases h
    exact ⟨hOp, textFor_of_lowerText hLeft, textFor_of_lowerText hRight⟩

theorem conditionFor_of_lowerCondition (h : lowerCondition scope n = .ok c) : ConditionFor n c := by
  cases n with
  | strCompare span op l r =>
    obtain ⟨hOp, hl, hr⟩ := textFor_of_compareTexts h
    exact .texts hOp hl hr
  | binary span op l r =>
    rw [lowerCondition] at h
    split at h
    · next hRelational =>
      obtain ⟨hOp, hl, hr⟩ := textFor_of_compareTexts h
      exact .relation hRelational hOp hl hr
    · cases h
  | ident span name =>
    cases h
    exact .read (.name span name)
  | subscript span array index =>
    rw [lowerCondition] at h
    obtain ⟨p, hPlace, h⟩ := exists_of_bind_eq_ok h
    cases h
    exact .read (placeFor_of_lowerPlace hPlace)
  | bool span v =>
    cases h
    exact .bool span v
  | number span v =>
    cases h
    exact .number span v
  | _ => cases h

theorem PlaceFor.location_value (I : Interpretation) (args : Arguments) (σ : Store)
    (h : PlaceFor n p) : p.location args σ = place I σ n ∧ p.value args σ = text I σ n := by
  induction h with
  | name span name => exact ⟨rfl, rfl⟩
  | item hBase ih => simp only [Place.location, Place.value, Index.value, place, text, ih.1, and_self]
  | itemRead hBase hIndex ihBase ihIndex =>
    simp only [Place.location, Place.value, Index.value, place, text, ihBase.1, ihIndex.2, and_self]

theorem location_of_lowerPlace (I : Interpretation) (args : Arguments) (σ : Store)
    (h : lowerPlace scope n = .ok p) : p.location args σ = place I σ n :=
  ((placeFor_of_lowerPlace h).location_value I args σ).1

theorem intText_truthNumber (b : Bool) :
    Number.intText (truthNumber b).toInt = truthText b := by
  cases b <;> rfl

theorem token_of_unaryOp? {o : Op} (h : unaryOp? op = some o) : o.token = op := by
  cases op <;> cases h <;> rfl

theorem token_of_arithOp? {o : Op} (h : arithOp? op = some o) :
    o.token = op ∧ op.isRelational = false := by
  cases op <;> cases h <;> exact ⟨rfl, rfl⟩

theorem token_of_cmpOp? {o : CmpOp} (h : cmpOp? op = some o) : o.token = op := by
  cases op <;> cases h <;> rfl

theorem ArithFor.value_eq (hPlus : ∀ s, I.unary .plus s = s) (args : Arguments) (σ : Store)
    {a : Arith} (h : ArithFor n a) : a.value I args σ = text I σ n := by
  induction h with
  | bool span v => exact intText_truthNumber v
  | number span v => rfl
  | read h => exact (h.location_value I args σ).2
  | plus h ih => rw [text, hPlus, ih]
  | unary hOp h ih => rw [Arith.value, text, token_of_unaryOp? hOp, ih]
  | binary hOp hl hr ihl ihr =>
    obtain ⟨hToken, hRelational⟩ := token_of_arithOp? hOp
    rw [Arith.value, text, hToken, hRelational, ihl, ihr]
    rfl

theorem TextFor.textOf_eq (I : Interpretation) (args : Arguments) (σ : Store) {fs : List Fragment}
    (h : TextFor n fs) : textOf args σ fs = text I σ n := by
  induction h with
  | bool span v =>
    simp only [textOf, Fragment.value, String.append_empty, text]
    exact intText_truthNumber v
  | number span v | string span v =>
    simp only [textOf, Fragment.value, String.append_empty, text]
  | read h =>
    simp only [textOf, Fragment.value, String.append_empty]
    exact (h.location_value I args σ).2
  | concat hl hr ihl ihr => rw [textOf_append, text, ihl, ihr]

/-- A call of a declared function passes the return register and the frame number first. -/
def callEvent (table : ScopeTable) (name : String) (args : List String) : Event :=
  if table.isFunction name then ⟨":" ++ name, returnRegister :: frameNumber :: args⟩
  else ⟨name, args⟩

/-- What lowering takes for granted about the language: a sign in front changes nothing, texts are
compared for equality, the text `1` is true, and elements of list literals are stored in turn. -/
structure Standard (table : ScopeTable) (I : Interpretation) : Prop where
  plus : ∀ s, I.unary .plus s = s
  equal : ∀ l r, I.compare .eq l r = decide (l = r)
  truth : ∀ s, I.truth s = decide (s = "1")
  lists : I.lists = .inTurn
  event : ∀ name args, I.event name args = callEvent table name args

theorem holds_isOne {table : ScopeTable} (hI : Standard table I) (args : Arguments) (σ : Store)
    (f : Fragment) : (isOne f).holds I args σ = I.truth (f.value args σ) := by
  simp only [isOne, Comparison.holds, CmpOp.token, textOf, Fragment.value, String.append_empty,
    hI.equal, hI.truth]

theorem holds_of_lowerCondition {table : ScopeTable} (hI : Standard table I) (args : Arguments)
    (σ : Store) (h : lowerCondition scope n = .ok c) : c.holds I args σ = holds I σ n := by
  cases conditionFor_of_lowerCondition h with
  | texts hOp hl hr =>
    rw [Comparison.holds, token_of_cmpOp? hOp, hl.textOf_eq I, hr.textOf_eq I]
    rfl
  | relation hRelational hOp hl hr =>
    rw [Comparison.holds, token_of_cmpOp? hOp, hl.textOf_eq I, hr.textOf_eq I, holds,
      if_pos hRelational]
  | read hPlace =>
    rw [holds_isOne hI, Fragment.value, (hPlace.location_value I args σ).2]
    cases hPlace <;> rfl
  | bool span v => exact holds_isOne hI args σ _
  | number span v =>
    have hOne : (Number.intText v.toInt = "1") ↔ v = 1 := by
      rw [Number.intText_eq_one_iff]
      exact ⟨fun hv => Int64.toInt_inj.mp hv, fun hv => by rw [hv]; rfl⟩
    have hHolds : holds I σ (.number span v) = I.truth (Number.intText v.toInt) := rfl
    rw [constantCondition, holds_isOne hI, hHolds, Fragment.value, hI.truth, hI.truth]
    rw [decide_eq_decide, hOne]
    by_cases hv : v = 1 <;> simp [hv]

theorem textOf_of_mapM_lowerText (I : Interpretation) (args : Arguments) (σ : Store)
    {ns : List Node} (h : ns.mapM (lowerText scope) = .ok texts) :
    texts.map (textOf args σ) = ns.map (text I σ) := by
  have hTexts := forall₂_of_mapM_lowerText h
  clear h
  induction hTexts with
  | nil => rfl
  | cons h _ ih => rw [List.map_cons, List.map_cons, h.textOf_eq I, ih]

def performAll (I : Interpretation) (args : Arguments) (stmts : List Stmt) (w : World) : World :=
  stmts.foldl (fun w s => s.perform I args w) w

def isAction : Stmt → Bool
  | .setText .. | .setNumber .. | .call .. => true
  | _ => false

theorem performAll_append (I : Interpretation) (args : Arguments) (a b : List Stmt) (w : World) :
    performAll I args (a ++ b) w = performAll I args b (performAll I args a w) :=
  List.foldl_append

inductive ItemOf (dst : Place) : Place → Prop where
  | self : ItemOf dst dst
  | item {p : Place} (position : Int64) (h : ItemOf dst p) : ItemOf dst (.item p (.int position))

/-- What the elements of a list literal are lowered to, from `position` on, if `R` says what a
single value is lowered to. -/
inductive ElementsFor (R : Place → Node → List Stmt → Prop) (dst : Place) :
    Nat → List Node → List Stmt → Prop where
  | nil {position : Nat} : ElementsFor R dst position [] []
  | cons {position : Nat} {e : Node} {rest : List Node} {A B : List Stmt}
    (h : R (.item dst (.int (Int64.ofNat position))) e A)
    (hRest : ElementsFor R dst (position + 1) rest B) :
    ElementsFor R dst position (e :: rest) (A ++ B)

theorem lowerAssign_induction {P : Place → Node → List Stmt → Prop}
    (hText : ∀ dst n fs, TextFor n fs → P dst n [.setText dst fs])
    (hNumber : ∀ dst n a, ArithFor n a → P dst n [.setNumber dst a])
    (hList : ∀ dst span elems A, ElementsFor P dst 0 elems A → P dst (.list span elems) A)
    (h : lowerAssign scope dst n = .ok A) : P dst n A := by
  induction n using Node.induction generalizing dst A with
  | list span elems ih =>
    have hElems : ∀ (es : List Node) (position : Nat) (A : List Stmt), (∀ e ∈ es, e ∈ elems) →
        lowerElements scope dst position es = .ok A → ElementsFor P dst position es A := by
      intro es
      induction es with
      | nil =>
        intro position A _ h
        rw [lowerElements] at h
        cases h
        exact .nil
      | cons e rest ihRest =>
        intro position A hMem h
        rw [lowerElements] at h
        obtain ⟨first, hFirst, h⟩ := exists_of_bind_eq_ok h
        obtain ⟨others, hOthers, h⟩ := exists_of_bind_eq_ok h
        cases h
        obtain ⟨he, hRest⟩ := List.forall_mem_cons.mp hMem
        exact .cons (ih e he hFirst) (ihRest (position + 1) others hRest hOthers)
    rw [lowerAssign] at h
    exact hList dst span elems A (hElems elems 0 A (fun _ he => he) h)
  | string span v | strCompare span op l r | concat span l r | call span callee as
  | ident span name | subscript span array index =>
    rw [lowerAssign] at h
    obtain ⟨fs, hfs, h⟩ := exists_of_bind_eq_ok h
    cases h
    exact hText dst _ fs (textFor_of_lowerText hfs)
  | bool span v | number span v | float span v | unary span op e | binary span op l r =>
    rw [lowerAssign] at h
    obtain ⟨a, ha, h⟩ := exists_of_bind_eq_ok h
    cases h
    exact hNumber dst _ a (arithFor_of_lowerArith ha)
  | _ => cases h

/-- A value is stored by assignments to the place and to its elements. `G` is what is known of the
value, and so of the elements of a list literal. -/
theorem forall_of_lowerAssign {P : Stmt → Prop} {G : Node → Prop}
    (hElem : ∀ span elems e, G (.list span elems) → e ∈ elems → G e) (hn : G n)
    (hText : ∀ p n fs, ItemOf dst p → G n → TextFor n fs → P (.setText p fs))
    (hNumber : ∀ p n a, ItemOf dst p → G n → ArithFor n a → P (.setNumber p a))
    (h : lowerAssign scope dst n = .ok A) : ∀ s ∈ A, P s := by
  refine lowerAssign_induction (P := fun q n A => ItemOf dst q → G n → ∀ s ∈ A, P s)
    (fun q n fs h hq hn => List.forall_mem_singleton.mpr (hText q n fs hq hn h))
    (fun q n a h hq hn => List.forall_mem_singleton.mpr (hNumber q n a hq hn h)) ?_ h .self hn
  intro q span elems A h hq hn
  have hEach := fun e he => hElem span elems e hn he
  clear hn
  generalize 0 = position at h
  induction h with
  | nil => exact nofun
  | cons h _ ih =>
    obtain ⟨he, hRest⟩ := List.forall_mem_cons.mp hEach
    exact List.forall_mem_append.mpr ⟨h (.item _ hq) he, ih hRest⟩

theorem isAction_of_lowerAssign (h : lowerAssign scope dst n = .ok A) :
    ∀ s ∈ A, isAction s = true :=
  forall_of_lowerAssign (G := fun _ => True) (fun _ _ _ _ _ => trivial) trivial
    (fun _ _ _ _ _ _ => rfl) (fun _ _ _ _ _ _ => rfl) h

theorem performAll_of_lowerAssign (hPlus : ∀ s, I.unary .plus s = s) (args : Arguments)
    {target : Store → Location} (hDst : ∀ σ, dst.location args σ = target σ)
    (h : lowerAssign scope dst n = .ok A) (w : World) :
    performAll I args A w = { w with store := assignInTurn I target w.store n } := by
  refine lowerAssign_induction (P := fun dst n A => ∀ (target : Store → Location) (w : World),
    (∀ σ, dst.location args σ = target σ) →
      performAll I args A w = { w with store := assignInTurn I target w.store n })
    ?_ ?_ ?_ h target w hDst
  · intro dst n fs h target w hDst
    have hStore : assignInTurn I target w.store n = w.store.set (target w.store) (text I w.store n) := by
      cases h with
      | read h => cases h <;> rfl
      | _ => rfl
    simp only [performAll, List.foldl_cons, List.foldl_nil, Stmt.perform, hStore, hDst,
      h.textOf_eq I]
  · intro dst n a h target w hDst
    have hStore : assignInTurn I target w.store n = w.store.set (target w.store) (text I w.store n) := by
      cases h with
      | read h => cases h <;> rfl
      | _ => rfl
    simp only [performAll, List.foldl_cons, List.foldl_nil, Stmt.perform, hStore, hDst,
      h.value_eq hPlus]
  · intro dst span elems A h target w hDst
    simp only [assignInTurn]
    generalize 0 = position at h ⊢
    induction h generalizing w with
    | nil => simp only [assignFrom, performAll, List.foldl_nil]
    | @cons position e rest A B h _ ih =>
      have hItem (σ : Store) : (Place.item dst (.int (Int64.ofNat position))).location args σ =
          (target σ).item (positionText position) := by
        rw [Place.location, hDst]
        rfl
      rw [performAll_append, h _ w hItem, ih]
      simp only [assignFrom]

end BatchCompiler.Lowering
