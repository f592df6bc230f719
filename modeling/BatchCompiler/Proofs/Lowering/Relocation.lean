import BatchCompiler.Proofs.Lowering.Storage
import Mathlib.Logic.Function.Basic

/-!
# Running in a frame

Code in a frame does what the code does outside it, with every variable `x` at `x[frame]` instead.
Only the return register, whose name is an argument of the call, stays where it is. Indices keep
naming what they named before, so this is so of code whose indices are numbers.
-/

namespace BatchCompiler.Target

open Meaning

variable {I : Interpretation} {args : Arguments} {w v : World} {u u' : Config} {l : Location}

inductive Doing where
  | passes
  | tests (outcome : Bool)
  | stores (location : Location) (text : String)
  | calls (event : Event)

def Stmt.doing (I : Interpretation) (args : Arguments) (σ : Store) : Stmt → Doing
  | .setText dst value => .stores (dst.location args σ) (textOf args σ value)
  | .setNumber dst e => .stores (dst.location args σ) (e.value I args σ)
  | .call callee values => .calls ⟨callee.value args σ, values.map (textOf args σ)⟩
  | _ => .passes

def doing? (I : Interpretation) (args : Arguments) (p : Program) (s : Config) : Option Doing :=
  match move p s.code with
  | .stop => none
  | .go _ => some .passes
  | .act stmt _ => some (stmt.doing I args s.world.store)
  | .test cond _ _ => some (.tests (cond.holds I args s.world.store))

def Takes (I : Interpretation) (args : Arguments) (p : Program) (s : Config) (d : Doing)
    (s' : Config) : Prop :=
  doing? I args p s = some d ∧ ∃ effect, step { I with effect := effect } args p s = some s'

inductive Runs (I : Interpretation) (args : Arguments) (p : Program) :
    Config → List Doing → Config → Prop where
  | nil {s : Config} : Runs I args p s [] s
  | cons {s s₁ s' : Config} {d : Doing} {ds : List Doing} (h : Takes I args p s d s₁)
    (hRest : Runs I args p s₁ ds s') : Runs I args p s (d :: ds) s'

def Doing.Leads : Doing → World → World → Prop
  | .passes, w, v | .tests _, w, v => v = w
  | .stores l text, w, v => v = { w with store := w.store.set l text }
  | .calls e, w, v => v.events = w.events ++ [e]

inductive Goes (I : Interpretation) (args : Arguments) (w : World) :
    Move → Doing → Config → Prop where
  | go {c : List Stmt} : Goes I args w (.go c) .passes ⟨c, w⟩
  | act {s : Stmt} {c : List Stmt} {d : Doing} {v : World} (hDoing : s.doing I args w.store = d)
    (hLeads : d.Leads w v) : Goes I args w (.act s c) d ⟨c, v⟩
  | test {cond : Comparison} {yes no : List Stmt} {outcome : Bool}
    (hOutcome : cond.holds I args w.store = outcome) :
    Goes I args w (.test cond yes no) (.tests outcome) ⟨if outcome then yes else no, w⟩

theorem value_of_effect (effect : List Event → Store → Store) (args : Arguments) (σ : Store)
    (e : Arith) : e.value { I with effect := effect } args σ = e.value I args σ := by
  induction e with
  | absent | int | read => rfl
  | unary op e ih => simp only [Arith.value, ih]
  | binary op l r ihl ihr => simp only [Arith.value, ihl, ihr]

theorem exists_perform_iff (s : Stmt) :
    (∃ effect, s.perform { I with effect := effect } args w = v) ↔
      (s.doing I args w.store).Leads w v := by
  cases s with
  | call callee values =>
    constructor
    · rintro ⟨effect, rfl⟩
      rfl
    · intro hEvents
      -- A call may leave any store: take the effect that leaves this one.
      refine ⟨fun _ _ => v.store, ?_⟩
      obtain ⟨store, events⟩ := v
      cases hEvents
      rfl
  | setText dst value =>
    constructor
    · rintro ⟨_, rfl⟩
      rfl
    · exact fun hStore => ⟨I.effect, hStore.symm⟩
  | setNumber dst e =>
    constructor
    · rintro ⟨effect, rfl⟩
      simp only [Stmt.doing, Doing.Leads, Stmt.perform, value_of_effect]
    · exact fun hStore => ⟨I.effect, hStore.symm⟩
  | absent | raw | comment | label | jump | whenTrue | choose =>
    constructor
    · rintro ⟨_, rfl⟩
      rfl
    · exact fun hSame => ⟨I.effect, hSame.symm⟩

theorem takes_iff_goes {p : Program} {s s' : Config} {d : Doing} :
    Takes I args p s d s' ↔ Goes I args s.world (move p s.code) d s' := by
  unfold Takes doing? step
  cases hMove : move p s.code with
  | stop =>
    constructor
    · rintro ⟨hDoing, _⟩
      cases hDoing
    · intro hGoes
      cases hGoes
  | go c =>
    constructor
    · rintro ⟨hDoing, effect, hStep⟩
      cases hDoing
      cases hStep
      exact .go
    · intro hGoes
      cases hGoes
      exact ⟨rfl, I.effect, rfl⟩
  | act stmt c =>
    constructor
    · rintro ⟨hDoing, effect, hStep⟩
      cases hDoing
      cases hStep
      exact .act rfl ((exists_perform_iff stmt).mp ⟨effect, rfl⟩)
    · intro hGoes
      cases hGoes with
      | act hDoing hLeads =>
        subst hDoing
        obtain ⟨effect, rfl⟩ := (exists_perform_iff stmt).mpr hLeads
        exact ⟨rfl, effect, rfl⟩
  | test cond yes no =>
    constructor
    · rintro ⟨hDoing, effect, hStep⟩
      cases hDoing
      cases hStep
      exact .test rfl
    · intro hGoes
      cases hGoes with
      | test hOutcome =>
        subst hOutcome
        exact ⟨rfl, I.effect, rfl⟩

/-- Where a location is in the frame of a call. The return register is in no frame. -/
def movedLocation (args : Arguments) (l : Location) : Location :=
  if l.name = args returnSlot then l else { name := l.name, indices := args frameSlot :: l.indices }

def viewed (args : Arguments) (σ : Store) : Store :=
  fun l => σ (movedLocation args l)

def viewedWorld (args : Arguments) (w : World) : World :=
  { store := viewed args w.store, events := w.events }

def Doing.moved (args : Arguments) : Doing → Doing
  | .stores l text => .stores (movedLocation args l) text
  | d => d

section

variable {args : Arguments}

theorem movedLocation_item (l : Location) (index : String) :
    movedLocation args (l.item index) = (movedLocation args l).item index := by
  unfold movedLocation Location.item
  split
  · rfl
  · rfl

theorem movedLocation_injective : Function.Injective (movedLocation args) := by
  intro l m h
  obtain ⟨name, indices⟩ := l
  obtain ⟨name', indices'⟩ := m
  unfold movedLocation at h
  split at h
  · split at h
    · exact h
    · next hName hName' =>
      cases h
      exact absurd hName hName'
  · split at h
    · next hName hName' =>
      cases h
      exact absurd hName' hName
    · cases h
      rfl

theorem viewed_set (σ : Store) (l : Location) (text : String) :
    viewed args (σ.set (movedLocation args l) text) = (viewed args σ).set l text := by
  funext m
  by_cases hm : m = l
  · subst hm
    simp only [viewed, Store.set_self]
  · have hMoved : movedLocation args m ≠ movedLocation args l :=
      fun hEq => hm (movedLocation_injective hEq)
    rw [viewed, Store.set_of_ne _ _ hMoved, Store.set_of_ne _ _ hm, viewed]

theorem exists_viewed_eq (args : Arguments) (σ : Store) : ∃ τ, viewed args τ = σ :=
  ⟨Function.extend (movedLocation args) σ fun _ => "",
    funext fun l => movedLocation_injective.extend_apply σ _ l⟩

theorem leads_viewed {d : Doing} (h : (d.moved args).Leads w v) :
    d.Leads (viewedWorld args w) (viewedWorld args v) := by
  cases d with
  | passes | tests => exact congrArg (viewedWorld args) h
  | stores l text =>
    have hStore := congrArg (viewedWorld args) h
    simp only [viewedWorld, viewed_set] at hStore
    exact hStore
  | calls e => exact h

theorem exists_leads_of_viewed {d : Doing} (h : d.Leads (viewedWorld args w) v) :
    ∃ v', (d.moved args).Leads w v' ∧ v = viewedWorld args v' := by
  cases d with
  | passes | tests => exact ⟨w, rfl, h⟩
  | stores l text =>
    refine ⟨_, rfl, h.trans ?_⟩
    simp only [viewedWorld, viewed_set]
  | calls e =>
    -- Of the store that the call leaves, only what is seen from the frame is given.
    obtain ⟨store, events⟩ := v
    obtain ⟨τ, rfl⟩ := exists_viewed_eq args store
    exact ⟨⟨τ, events⟩, h, rfl⟩

end

def Place.Literal : Place → Prop
  | .item base index => base.Literal ∧ ∃ v, index = .int v
  | _ => True

/-- What moves into the frame as a whole: a variable other than the return register, or that. -/
def Place.Fits (args : Arguments) (p : Place) : Prop :=
  p.Literal ∧ ((∃ n, p.base = .name n ∧ n ≠ args returnSlot) ∨ p.base = .slot returnSlot)

def Fitting (args : Arguments) (uses : List (Use × Place)) : Prop :=
  ∀ x ∈ uses, x.2.Fits args

section

variable {I : Interpretation} {args : Arguments} (σ : Store)

theorem fitting_append {a b : List (Use × Place)} :
    Fitting args (a ++ b) ↔ Fitting args a ∧ Fitting args b :=
  List.forall_mem_append

theorem location_framed : (p : Place) → p.Fits args →
    p.framed.location args σ = movedLocation args (p.location args (viewed args σ))
  | .absent, hFits => by
    rcases hFits.2 with ⟨m, hBase, _⟩ | hBase <;> cases hBase
  | .name n, hFits => by
    rcases hFits.2 with ⟨m, hBase, hm⟩ | hBase
    · cases hBase
      have hMoved : movedLocation args { name := n } = ({ name := n } : Location).item
          (args frameSlot) := if_neg hm
      simp only [Place.framed, Place.location, Index.value, Place.value, frameIndex, hMoved]
    · cases hBase
  | .slot n, hFits => by
    rcases hFits.2 with ⟨m, hBase, _⟩ | hBase
    · cases hBase
    · cases hBase
      simp only [Place.framed, Place.location, movedLocation, if_true]
  | .item base index, hFits => by
    -- The index is a number, so it has one value whichever store it is looked up in.
    obtain ⟨⟨hLiteral, v, rfl⟩, hBase⟩ := hFits
    have hLocation := location_framed base ⟨hLiteral, hBase⟩
    simp only [Place.framed, Place.location, Index.value, movedLocation_item, hLocation]

theorem value_framed (p : Place) (hFits : Fitting args p.valueUses) :
    p.framed.value args σ = p.value args (viewed args σ) := by
  cases p with
  | absent | slot => rfl
  | name | item => exact congrArg σ (location_framed σ _ (hFits _ List.mem_cons_self))

theorem arith_value_framed (e : Arith) (hFits : Fitting args e.uses) :
    e.framed.value I args σ = e.value I args (viewed args σ) := by
  induction e with
  | absent | int => rfl
  | read p => exact value_framed σ p hFits
  | unary op e ih => simp only [Arith.framed, Arith.value, ih hFits]
  | binary op l r ihl ihr =>
    obtain ⟨hLeft, hRight⟩ := fitting_append.mp hFits
    simp only [Arith.framed, Arith.value, ihl hLeft, ihr hRight]

theorem fragment_value_framed (f : Fragment) (hFits : Fitting args f.uses) :
    f.framed.value args σ = f.value args (viewed args σ) := by
  cases f with
  | absent | text => rfl
  | read p => exact value_framed σ p hFits

theorem textOf_framed (fs : List Fragment) (hFits : Fitting args (textUses fs)) :
    textOf args σ (fs.map Fragment.framed) = textOf args (viewed args σ) fs := by
  induction fs with
  | nil => rfl
  | cons f rest ih =>
    obtain ⟨hFirst, hOthers⟩ := fitting_append.mp hFits
    rw [List.map_cons, textOf, textOf, fragment_value_framed σ f hFirst, ih hOthers]

theorem textsOf_framed (values : List (List Fragment))
    (hFits : Fitting args (values.flatMap textUses)) :
    (values.map (List.map Fragment.framed)).map (textOf args σ) =
      values.map (textOf args (viewed args σ)) := by
  rw [List.map_map]
  refine List.map_congr_left fun fs hfs => textOf_framed σ fs fun x hx => ?_
  exact hFits x (List.mem_flatMap.mpr ⟨fs, hfs, hx⟩)

theorem holds_framed (c : Comparison) (hFits : Fitting args c.uses) :
    c.framed.holds I args σ = c.holds I args (viewed args σ) := by
  obtain ⟨hLeft, hRight⟩ := fitting_append.mp hFits
  simp only [Comparison.framed, Comparison.holds, textOf_framed σ _ hLeft, textOf_framed σ _ hRight]

theorem doing_framed (s : Stmt) (hFits : Fitting args s.uses) :
    s.framed.doing I args σ = (s.doing I args (viewed args σ)).moved args := by
  cases s with
  | setText dst value =>
    obtain ⟨hPlace, hText⟩ := fitting_append.mp hFits
    simp only [Stmt.framed, Stmt.doing, Doing.moved, textOf_framed σ value hText,
      location_framed σ dst (hPlace _ List.mem_cons_self)]
  | setNumber dst e =>
    obtain ⟨hPlace, hValue⟩ := fitting_append.mp hFits
    simp only [Stmt.framed, Stmt.doing, Doing.moved, arith_value_framed σ e hValue,
      location_framed σ dst (hPlace _ List.mem_cons_self)]
  | call callee values =>
    obtain ⟨hName, hTexts⟩ := fitting_append.mp hFits
    simp only [Stmt.framed, Stmt.doing, Doing.moved, fragment_value_framed σ callee hName,
      textsOf_framed σ values hTexts]
  | absent | raw | comment | label | jump | whenTrue | choose => rfl

theorem doing_of_inFrame {s s' : Stmt} (h : s.inFrame = .ok s') (hFits : Fitting args s.uses) :
    s'.doing I args σ = (s.doing I args (viewed args σ)).moved args :=
  s.eq_framed s' h ▸ doing_framed σ s hFits

theorem holds_of_inFrame {c c' : Comparison} (h : c.inFrame = .ok c')
    (hFits : Fitting args c.uses) : c'.holds I args σ = c.holds I args (viewed args σ) :=
  c.eq_framed c' h ▸ holds_framed σ c hFits

end

theorem inFrame_append {a a' b b' : List Stmt} (ha : inFrame a = .ok a') (hb : inFrame b = .ok b') :
    inFrame (a ++ b) = .ok (a' ++ b') := by
  induction a generalizing a' with
  | nil =>
    cases ha
    exact hb
  | cons s rest ih =>
    obtain ⟨s', hs, ha⟩ := Lowering.exists_of_bind_eq_ok ha
    obtain ⟨rest', hRest, ha⟩ := Lowering.exists_of_bind_eq_ok ha
    cases ha
    rw [List.cons_append, inFrame, hs, ih hRest]
    rfl

def AlikeCode : Option (List Stmt) → Option (List Stmt) → Prop
  | none, none => True
  | some c, some c' => inFrame c = .ok c'
  | _, _ => False

mutual

theorem Stmt.alike_afterLabel? (label : String) : (s s' : Stmt) → s.inFrame = .ok s' →
    AlikeCode (s.afterLabel? label) (s'.afterLabel? label)
  | .absent, _, h => by cases h
  | .raw _, _, h | .comment _, _, h | .jump _, _, h => by
    cases h
    trivial
  | .label name, _, h => by
    cases h
    rw [Stmt.afterLabel?]
    split
    · rfl
    · trivial
  | .setText .., _, h | .setNumber .., _, h | .call .., _, h => by
    obtain ⟨_, _, h⟩ := Lowering.exists_of_bind_eq_ok h
    obtain ⟨_, _, h⟩ := Lowering.exists_of_bind_eq_ok h
    cases h
    trivial
  | .whenTrue c body, _, h => by
    obtain ⟨_, _, h⟩ := Lowering.exists_of_bind_eq_ok h
    obtain ⟨body', hBody, h⟩ := Lowering.exists_of_bind_eq_ok h
    cases h
    exact alike_afterLabel? label body body' hBody
  | .choose c t e, _, h => by
    obtain ⟨_, _, h⟩ := Lowering.exists_of_bind_eq_ok h
    obtain ⟨t', ht, h⟩ := Lowering.exists_of_bind_eq_ok h
    obtain ⟨e', he, h⟩ := Lowering.exists_of_bind_eq_ok h
    cases h
    have hThen := alike_afterLabel? label t t' ht
    have hElse := alike_afterLabel? label e e' he
    rw [Stmt.afterLabel?, Stmt.afterLabel?]
    cases hLabel : afterLabel? label t <;> cases hLabel' : afterLabel? label t' <;>
      rw [hLabel, hLabel'] at hThen
    · exact hElse
    · cases hThen
    · cases hThen
    · exact hThen

theorem alike_afterLabel? (label : String) : (p p' : List Stmt) → inFrame p = .ok p' →
    AlikeCode (afterLabel? label p) (afterLabel? label p')
  | [], _, h => by
    cases h
    trivial
  | s :: rest, _, h => by
    obtain ⟨s', hs, h⟩ := Lowering.exists_of_bind_eq_ok h
    obtain ⟨rest', hRest, h⟩ := Lowering.exists_of_bind_eq_ok h
    cases h
    have hFirst := s.alike_afterLabel? label s' hs
    have hOthers := alike_afterLabel? label rest rest' hRest
    rw [afterLabel?, afterLabel?]
    cases hLabel : s.afterLabel? label <;> cases hLabel' : s'.afterLabel? label <;>
      rw [hLabel, hLabel'] at hFirst
    · exact hOthers
    · cases hFirst
    · cases hFirst
    · exact inFrame_append hFirst hRest

end

inductive AlikeMove : Move → Move → Prop where
  | stop : AlikeMove .stop .stop
  | go {c c' : List Stmt} (h : inFrame c = .ok c') : AlikeMove (.go c) (.go c')
  | act {s s' : Stmt} {c c' : List Stmt} (hs : s.inFrame = .ok s') (h : inFrame c = .ok c') :
    AlikeMove (.act s c) (.act s' c')
  | test {cond cond' : Comparison} {yes yes' no no' : List Stmt} (hCond : cond.inFrame = .ok cond')
    (hYes : inFrame yes = .ok yes') (hNo : inFrame no = .ok no') :
    AlikeMove (.test cond yes no) (.test cond' yes' no')

theorem alikeMove_move {p p' code code' : List Stmt} (hp : inFrame p = .ok p')
    (h : inFrame code = .ok code') : AlikeMove (move p code) (move p' code') := by
  cases code with
  | nil =>
    cases h
    exact .stop
  | cons s rest =>
    obtain ⟨s', hs, h⟩ := Lowering.exists_of_bind_eq_ok h
    obtain ⟨rest', hRest, h⟩ := Lowering.exists_of_bind_eq_ok h
    cases h
    cases s with
    | absent => cases hs
    | comment | label =>
      cases hs
      exact .go hRest
    | raw t =>
      cases hs
      exact .act rfl hRest
    | jump target =>
      cases hs
      -- Labels are not moved, so a jump finds its target in both programs or in neither.
      have hTarget := alike_afterLabel? target p p' hp
      simp only [move, moveBy]
      split
      · exact .stop
      · cases hLabel : afterLabel? target p <;> cases hLabel' : afterLabel? target p' <;>
          rw [hLabel, hLabel'] at hTarget
        · exact .stop
        · cases hTarget
        · cases hTarget
        · exact .go hTarget
    | setText | setNumber | call =>
      have hStmt := hs
      obtain ⟨_, _, hs⟩ := Lowering.exists_of_bind_eq_ok hs
      obtain ⟨_, _, hs⟩ := Lowering.exists_of_bind_eq_ok hs
      cases hs
      exact .act hStmt hRest
    | whenTrue c body =>
      obtain ⟨_, hc, hs⟩ := Lowering.exists_of_bind_eq_ok hs
      obtain ⟨_, hBody, hs⟩ := Lowering.exists_of_bind_eq_ok hs
      cases hs
      exact .test hc (inFrame_append hBody hRest) hRest
    | choose c t e =>
      obtain ⟨_, hc, hs⟩ := Lowering.exists_of_bind_eq_ok hs
      obtain ⟨_, ht, hs⟩ := Lowering.exists_of_bind_eq_ok hs
      obtain ⟨_, he, hs⟩ := Lowering.exists_of_bind_eq_ok hs
      cases hs
      exact .test hc (inFrame_append ht hRest) (inFrame_append he hRest)

section

variable {I : Interpretation} {args : Arguments} {w : World} {m m' : Move} {d : Doing}

theorem AlikeMove.exists_goes (h : AlikeMove m m') (hFits : UsesOnly (fun x => x.2.Fits args) m)
    (hGoes : Goes I args (viewedWorld args w) m d u) :
    ∃ u', Goes I args w m' (d.moved args) u' ∧ inFrame u.code = .ok u'.code ∧
      u.world = viewedWorld args u'.world := by
  cases h with
  | stop => cases hGoes
  | go hCode =>
    cases hGoes
    exact ⟨_, .go, hCode, rfl⟩
  | act hs hCode =>
    cases hGoes with
    | act hDoing hLeads =>
      obtain ⟨v, hv, rfl⟩ := exists_leads_of_viewed hLeads
      have hMoved := doing_of_inFrame (I := I) w.store hs hFits.1
      exact ⟨_, .act (hMoved.trans (congrArg (Doing.moved args) hDoing)) hv, hCode, rfl⟩
  | test hCond hYes hNo =>
    cases hGoes with
    | test hOutcome =>
      refine ⟨_, .test ((holds_of_inFrame w.store hCond hFits.1).trans hOutcome), ?_, rfl⟩
      dsimp only
      split
      · exact hYes
      · exact hNo

theorem AlikeMove.exists_goes_of_moved (h : AlikeMove m m')
    (hFits : UsesOnly (fun x => x.2.Fits args) m) (hGoes : Goes I args w m' d u') :
    ∃ d₁ u, d = d₁.moved args ∧ Goes I args (viewedWorld args w) m d₁ u ∧
      inFrame u.code = .ok u'.code ∧ u.world = viewedWorld args u'.world := by
  cases h with
  | stop => cases hGoes
  | go hCode =>
    cases hGoes
    exact ⟨.passes, _, rfl, .go, hCode, rfl⟩
  | act hs hCode =>
    cases hGoes with
    | act hDoing hLeads =>
      have hMoved := hDoing.symm.trans (doing_of_inFrame w.store hs hFits.1)
      subst hMoved
      exact ⟨_, _, rfl, .act rfl (leads_viewed hLeads), hCode, rfl⟩
  | test hCond hYes hNo =>
    cases hGoes with
    | test hOutcome =>
      have hHolds := holds_of_inFrame (I := I) w.store hCond hFits.1
      refine ⟨.tests _, _, rfl, .test (hHolds.symm.trans hOutcome), ?_, rfl⟩
      dsimp only
      split
      · exact hYes
      · exact hNo

theorem Goes.usesOnly {Q : Use × Place → Prop} (hGoes : Goes I args w m d u) (h : UsesOnly Q m) :
    ∀ x ∈ usesOf u.code, Q x := by
  cases hGoes with
  | go => exact h
  | act => exact h.2
  | test =>
    dsimp only
    split
    · exact h.2.1
    · exact h.2.2

end

theorem Goes.leads {m : Move} {d : Doing} (h : Goes I args w m d u) : d.Leads w u.world := by
  cases h with
  | go | test => rfl
  | act _ hLeads => exact hLeads

def Elsewhere (args : Arguments) (l : Location) : Prop :=
  l.name ≠ args returnSlot ∧ l.indices.head? ≠ some (args frameSlot)

theorem movedLocation_ne_of_elsewhere (h : Elsewhere args l) (m : Location) :
    l ≠ movedLocation args m := by
  rintro rfl
  unfold movedLocation at h
  split at h
  · next hName => exact h.1 hName
  · exact h.2 rfl

theorem store_of_leads {d : Doing} (h : (d.moved args).Leads w v)
    (hCall : ∀ e, d.moved args ≠ .calls e) (hl : Elsewhere args l) : v.store l = w.store l := by
  cases d with
  | passes | tests => rw [show v = w from h]
  | stores m text =>
    rw [show v = _ from h]
    exact w.store.set_of_ne text (movedLocation_ne_of_elsewhere hl m)
  | calls e => exact absurd rfl (hCall e)

/-- Two programs under way of which the second has all its variables in the frame. -/
structure Relocates (args : Arguments) (t t' : Config) : Prop where
  code : inFrame t.code = .ok t'.code
  world : t.world = viewedWorld args t'.world
  fits : Fitting args (usesOf t.code)

/-- Two programs under way that have done the same, the second in the frame, and go on to do the
same or stop. -/
structure Mirrors (I : Interpretation) (args : Arguments) (p p' : Program) (t t' : Config) :
    Prop where
  code : inFrame t.code = .ok t'.code
  world : t.world = viewedWorld args t'.world
  next : doing? I args p' t' = (doing? I args p t).map (Doing.moved args)

section

variable {I : Interpretation} {args : Arguments} {p p' : Program} (hp : inFrame p = .ok p')
  (hFits : Fitting args (usesOf p)) {t t' : Config}

include hp hFits

theorem Relocates.mirrors (h : Relocates args t t') : Mirrors I args p p' t t' := by
  refine ⟨h.code, h.world, ?_⟩
  have hAlike := alikeMove_move hp h.code
  have hUses := usesOnly_move hFits h.fits
  unfold doing?
  rw [h.world]
  generalize move p t.code = m at hAlike hUses
  generalize move p' t'.code = m' at hAlike
  cases hAlike with
  | stop | go => rfl
  | act hs => exact congrArg some (doing_of_inFrame _ hs hUses.1)
  | test hCond => exact congrArg (some ∘ Doing.tests) (holds_of_inFrame _ hCond hUses.1)

theorem Relocates.exists_takes (h : Relocates args t t') {d : Doing}
    (hTakes : Takes I args p t d u) :
    ∃ u', Takes I args p' t' (d.moved args) u' ∧ Relocates args u u' := by
  have hUses := usesOnly_move hFits h.fits
  rw [takes_iff_goes, h.world] at hTakes
  obtain ⟨u', hGoes, hCode, hWorld⟩ := (alikeMove_move hp h.code).exists_goes hUses hTakes
  exact ⟨u', takes_iff_goes.mpr hGoes, hCode, hWorld, hTakes.usesOnly hUses⟩

theorem Relocates.exists_takes_of_moved (h : Relocates args t t') {d' : Doing}
    (hTakes : Takes I args p' t' d' u') :
    ∃ d u, d' = d.moved args ∧ Takes I args p t d u ∧ Relocates args u u' := by
  have hUses := usesOnly_move hFits h.fits
  obtain ⟨d, u, hDoing, hGoes, hCode, hWorld⟩ :=
    (alikeMove_move hp h.code).exists_goes_of_moved hUses (takes_iff_goes.mp hTakes)
  rw [← h.world] at hGoes
  exact ⟨d, u, hDoing, takes_iff_goes.mpr hGoes, hCode, hWorld, hGoes.usesOnly hUses⟩

theorem Relocates.exists_runs (h : Relocates args t t') {ds : List Doing}
    (hRuns : Runs I args p t ds u) :
    ∃ u', Runs I args p' t' (ds.map (Doing.moved args)) u' ∧ Relocates args u u' := by
  induction hRuns generalizing t' with
  | nil => exact ⟨t', .nil, h⟩
  | cons hTakes _ ih =>
    obtain ⟨v', hTakes', hRelocates⟩ := h.exists_takes hp hFits hTakes
    obtain ⟨u', hRuns', hEnd⟩ := ih hRelocates
    exact ⟨u', .cons hTakes' hRuns', hEnd⟩

theorem Relocates.exists_runs_of_moved (h : Relocates args t t') {ds' : List Doing}
    (hRuns : Runs I args p' t' ds' u') :
    ∃ ds u, ds' = ds.map (Doing.moved args) ∧ Runs I args p t ds u ∧ Relocates args u u' := by
  induction hRuns generalizing t with
  | nil => exact ⟨[], t, rfl, .nil, h⟩
  | cons hTakes _ ih =>
    obtain ⟨d, v, rfl, hTakes', hRelocates⟩ := h.exists_takes_of_moved hp hFits hTakes
    obtain ⟨ds, u, rfl, hRuns', hEnd⟩ := ih hRelocates
    exact ⟨d :: ds, u, rfl, .cons hTakes' hRuns', hEnd⟩

theorem Relocates.store_of_takes (h : Relocates args t t') {d : Doing}
    (hTakes : Takes I args p' t' d u') (hCall : ∀ e, d ≠ .calls e) (hl : Elsewhere args l) :
    u'.world.store l = t'.world.store l := by
  obtain ⟨d, _, rfl, _⟩ := h.exists_takes_of_moved hp hFits hTakes
  exact store_of_leads (takes_iff_goes.mp hTakes).leads hCall hl

end

end BatchCompiler.Target

namespace BatchCompiler.Lowering

open Target Meaning

theorem fitting_of_keepsTo {uses : List (Use × Place)} (h : KeepsTo (fun _ => True) uses)
    (hIndices : ∀ u p, (u, p) ∈ uses → p.Literal)
    (hRegister : ∀ u p, (u, p) ∈ uses → p.base ≠ .name (args returnSlot)) : Fitting args uses := by
  rintro ⟨u, p⟩ hp
  refine ⟨hIndices u p hp, ?_⟩
  rcases h u p hp with ⟨name, hBase, _⟩ | ⟨_, hBase⟩
  · refine .inl ⟨name, hBase, ?_⟩
    rintro rfl
    exact hRegister u p hp hBase
  · exact .inr hBase

/-- A lowered body whose indices are numbers can be moved into the frame of a call, and there it does
what it does outside, step for step: the same tests come out the same, the same calls are made, and
the same texts are stored, each at the place in the frame or in the return register. It stops when
the body stops, and only calls change what is outside the frame. -/
theorem inFrame_mirrors {c : Context} {body : Node} {s s' : Progress} {B : List Stmt}
    (hLower : (lowerStatement c body).run s = (.ok B, s'))
    (hIndices : ∀ u p, (u, p) ∈ usesOf B → p.Literal) :
    ∃ B', inFrame B = .ok B' ∧ ∀ (I : Interpretation) (args : Arguments),
      (∀ u p, (u, p) ∈ usesOf B → p.base ≠ .name (args returnSlot)) → ∀ w : World,
        (∀ ds t, Runs I args B ⟨B, viewedWorld args w⟩ ds t →
          ∃ t', Runs I args B' ⟨B', w⟩ (ds.map (Doing.moved args)) t' ∧ Mirrors I args B B' t t') ∧
        ∀ ds' t', Runs I args B' ⟨B', w⟩ ds' t' →
          (∃ ds t, ds' = ds.map (Doing.moved args) ∧ Runs I args B ⟨B, viewedWorld args w⟩ ds t ∧
            Mirrors I args B B' t t') ∧
          ∀ d u', Takes I args B' t' d u' → (∀ e, d ≠ .calls e) →
            ∀ l, Elsewhere args l → u'.world.store l = t'.world.store l := by
  have hLowered := (loweredBefore_of_lowerStatement hLower).alone
  obtain ⟨B', hFrame⟩ := hLowered.framable
  refine ⟨B', hFrame, fun I args hRegister w => ?_⟩
  have hKeeps : KeepsTo (fun _ => True) (usesOf B) :=
    hLowered.keepsTo (P := fun _ => True) fun _ _ _ _ => trivial
  have hFits := fitting_of_keepsTo hKeeps hIndices hRegister
  have hStart : Relocates args ⟨B, viewedWorld args w⟩ ⟨B', w⟩ := ⟨hFrame, rfl, hFits⟩
  constructor
  · intro ds t hRuns
    obtain ⟨t', hRuns', hEnd⟩ := hStart.exists_runs hFrame hFits hRuns
    exact ⟨t', hRuns', hEnd.mirrors hFrame hFits⟩
  · intro ds' t' hRuns
    obtain ⟨ds, t, hDoings, hRuns', hEnd⟩ := hStart.exists_runs_of_moved hFrame hFits hRuns
    refine ⟨⟨ds, t, hDoings, hRuns', hEnd.mirrors hFrame hFits⟩, fun d u' hTakes hCall l hl => ?_⟩
    exact hEnd.store_of_takes hFrame hFits hTakes hCall hl

def countingBody : Node :=
  .block {} [
    .loop {} (.binary {} .lt (.ident {} "i") (.ident {} "n"))
      (.block {} [
        .assign {} (.subscript {} (.ident {} "xs") (.number {} 1)) (.ident {} "i"),
        .call {} (.ident {} "echo") [.subscript {} (.ident {} "xs") (.number {} 1)],
        .assign {} (.ident {} "i") (.binary {} .plus (.ident {} "i") (.number {} 1))] false),
    .ret {} (.list {} [.ident {} "i", .subscript {} (.ident {} "xs") (.number {} 1)])] false

def countingCode : List Stmt := [
  .label (labelName 0),
  .whenTrue { op := .lt, left := [.read (.name "i")], right := [.read (.name "n")] } [
    .setText (.item (.name "xs") (.int 1)) [.read (.name "i")],
    .call (.text "echo") [[.read (.item (.name "xs") (.int 1))]],
    .setNumber (.name "i") (.binary .add (.read (.name "i")) (.int 1)),
    .jump (labelName 0)],
  .setText (.item (.slot returnSlot) (.int 0)) [.read (.name "i")],
  .setText (.item (.slot returnSlot) (.int 1)) [.read (.item (.name "xs") (.int 1))],
  .jump endOfFile]

def seventhFrame : Arguments := fun n => if n = returnSlot then "ret" else "7"

theorem inFrame_mirrors_countingBody :
    (∃ s', (lowerStatement { settings := {}, table := {}, function := "count" } countingBody).run {} =
      (.ok countingCode, s')) ∧
    (∀ u p, (u, p) ∈ usesOf countingCode → p.Literal) ∧
    (∀ u p, (u, p) ∈ usesOf countingCode → p.base ≠ .name (seventhFrame returnSlot)) ∧
    ∃ B', inFrame countingCode = .ok B' ∧ ∀ (I : Interpretation) (w : World) ds t,
      Runs I seventhFrame countingCode ⟨countingCode, viewedWorld seventhFrame w⟩ ds t →
        ∃ t', Runs I seventhFrame B' ⟨B', w⟩ (ds.map (Doing.moved seventhFrame)) t' ∧
          Mirrors I seventhFrame countingCode B' t t' := by
  have hLower : ∃ s', (lowerStatement { settings := {}, table := {}, function := "count" }
      countingBody).run {} = (.ok countingCode, s') := ⟨_, rfl⟩
  have hUses : ∀ x ∈ usesOf countingCode,
      x.2.Literal ∧ x.2.base ≠ .name (seventhFrame returnSlot) := by
    simp [countingCode, usesOf, Stmt.uses, Place.assignedUses, Place.indexUses, Place.indexPlaces,
      Index.places, textUses, Fragment.uses, Place.valueUses, Comparison.uses, Arith.uses,
      Place.Literal, Place.base, seventhFrame]
  have hIndices : ∀ u p, (u, p) ∈ usesOf countingCode → p.Literal := fun _ _ hp => (hUses _ hp).1
  have hRegister : ∀ u p, (u, p) ∈ usesOf countingCode →
      p.base ≠ .name (seventhFrame returnSlot) := fun _ _ hp => (hUses _ hp).2
  refine ⟨hLower, hIndices, hRegister, ?_⟩
  obtain ⟨s', hRun⟩ := hLower
  obtain ⟨B', hFrame, hMirrors⟩ := inFrame_mirrors hRun hIndices
  exact ⟨B', hFrame, fun I w => (hMirrors I seventhFrame hRegister w).1⟩

end BatchCompiler.Lowering
