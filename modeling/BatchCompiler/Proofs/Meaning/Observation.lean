import Mathlib.Data.List.Forall2
import Mathlib.Logic.Relation

/-!
# What machines are seen to do

A machine stops, goes on unseen, acts, or tests something and goes on by the outcome. Outcomes are
given from outside. Two machines behave the same when, for the given outcomes, each of them shows
what the other shows and stops when the other stops.
-/

namespace BatchCompiler.Meaning

inductive Turn (α β σ : Type) where
  | stop
  | go (next : σ)
  | act (what : α) (next : σ)
  | test (what : β) (yes no : σ)

inductive Deed (α β : Type) where
  | act (what : α)
  | test (what : β)
deriving DecidableEq, Repr

abbrev Outcomes := Nat → Bool

def Outcomes.tail (o : Outcomes) : Outcomes := fun n => o (n + 1)

section

variable {α β α' β' σ τ : Type}

variable {n k : Nat} {s : σ} {t t' : τ} {turn : σ → Turn α β σ} {turn' : τ → Turn α' β' τ}
  {A : α → α' → Prop} {B : β → β' → Prop} {R : σ → τ → Prop}

/-- What is seen in so many turns, and whether the machine has stopped by then. -/
def observe (turn : σ → Turn α β σ) : (turns : Nat) → Outcomes → σ → List (Deed α β) × Bool
  | 0, _, _ => ([], false)
  | n + 1, o, s =>
    match turn s with
    | .stop => ([], true)
    | .go next => observe turn n o next
    | .act what next =>
      let seen := observe turn n o next
      (.act what :: seen.1, seen.2)
    | .test what yes no =>
      let seen := observe turn n o.tail (if o 0 then yes else no)
      (.test what :: seen.1, seen.2)

theorem observe_of_stopped {m : Nat} {o : Outcomes} (h : (observe turn n o s).2 = true)
    (hm : n ≤ m) : observe turn m o s = observe turn n o s := by
  induction n generalizing m o s with
  | zero => cases h
  | succ n ih =>
    obtain ⟨m, rfl⟩ := Nat.exists_eq_add_of_le' hm
    rw [← Nat.add_assoc]
    simp only [observe] at h ⊢
    cases hTurn : turn s with
    | stop => rfl
    | go next =>
      rw [hTurn] at h
      exact ih h (Nat.le_add_left n m)
    | act what next | test what yes no =>
      rw [hTurn] at h
      simp only [ih h (Nat.le_add_left n m)]

inductive Deed.Rel (A : α → α' → Prop) (B : β → β' → Prop) : Deed α β → Deed α' β' → Prop where
  | act {a : α} {a' : α'} (h : A a a') : Rel A B (.act a) (.act a')
  | test {b : β} {b' : β'} (h : B b b') : Rel A B (.test b) (.test b')

/-- Whatever one machine shows the other shows too, with corresponding deeds. -/
def SameDeeds (A : α → α' → Prop) (B : β → β' → Prop) (turn : σ → Turn α β σ)
    (turn' : τ → Turn α' β' τ) (s : σ) (t : τ) : Prop :=
  ∀ o : Outcomes,
    (∀ n, ∃ m, List.Forall₂ (Deed.Rel A B) (observe turn n o s).1 (observe turn' m o t).1 ∧
      (observe turn n o s).2 = (observe turn' m o t).2) ∧
    ∀ m, ∃ n, List.Forall₂ (Deed.Rel A B) (observe turn n o s).1 (observe turn' m o t).1 ∧
      (observe turn n o s).2 = (observe turn' m o t).2

/-- Going on unseen for so many turns leads from the one state to the other. -/
inductive Quietly (turn : τ → Turn α' β' τ) : Nat → τ → τ → Prop where
  | zero {t : τ} : Quietly turn 0 t t
  | succ {k : Nat} {t t₁ t' : τ} (h : turn t = .go t₁) (hRest : Quietly turn k t₁ t') :
    Quietly turn (k + 1) t t'

theorem Quietly.one (h : turn' t = .go t') : Quietly turn' 1 t t' :=
  .succ h .zero

theorem Quietly.trans {j : Nat} {t'' : τ} (h : Quietly turn' j t t') (h' : Quietly turn' k t' t'') :
    Quietly turn' (j + k) t t'' := by
  induction h with
  | zero => rwa [Nat.zero_add]
  | succ hTurn _ ih =>
    rw [Nat.succ_add]
    exact .succ hTurn (ih h')

theorem Quietly.observe_add (h : Quietly turn' k t t') (n : Nat) (o : Outcomes) :
    observe turn' (k + n) o t = observe turn' n o t' := by
  induction h with
  | zero => rw [Nat.zero_add]
  | succ hTurn _ ih =>
    rw [Nat.succ_add, observe, hTurn]
    exact ih

theorem Quietly.observe_le (h : Quietly turn' k t t') (hn : n ≤ k) (o : Outcomes) :
    observe turn' n o t = ([], false) := by
  induction h generalizing n with
  | zero =>
    obtain rfl : n = 0 := by omega
    rfl
  | succ hTurn _ ih =>
    cases n with
    | zero => rfl
    | succ n =>
      rw [observe, hTurn]
      exact ih (by omega)

def Rests (turn : τ → Turn α' β' τ) (t : τ) : Prop :=
  ∃ k t', Quietly turn k t t' ∧ turn t' = .stop

theorem observe_of_rests (hQuiet : Quietly turn' k t t') (hStop : turn' t' = .stop) (n : Nat)
    (o : Outcomes) : observe turn' n o t = ([], decide (k < n)) := by
  rcases Nat.lt_or_ge k n with hn | hn
  · obtain ⟨j, rfl⟩ := Nat.exists_eq_add_of_lt hn
    rw [Nat.add_assoc, hQuiet.observe_add, observe, hStop, decide_eq_true (by omega)]
  · rw [hQuiet.observe_le hn, decide_eq_false (by omega)]

theorem Rests.exists_observe (hs : Rests turn s) (ht : Rests turn' t) (n : Nat) (o : Outcomes) :
    ∃ m, (observe turn n o s).1 = [] ∧ (observe turn' m o t).1 = [] ∧
      (observe turn n o s).2 = (observe turn' m o t).2 := by
  obtain ⟨k, s', hk, hStop⟩ := hs
  obtain ⟨j, t', hj, hStop'⟩ := ht
  rw [observe_of_rests hk hStop]
  rcases Nat.lt_or_ge k n with hn | hn
  · refine ⟨j + 1, rfl, ?_⟩
    rw [observe_of_rests hj hStop', decide_eq_true hn, decide_eq_true (Nat.lt_succ_self j)]
    exact ⟨rfl, rfl⟩
  · refine ⟨0, rfl, ?_⟩
    rw [observe_of_rests hj hStop', decide_eq_false (by omega), decide_eq_false (by omega)]
    exact ⟨rfl, rfl⟩

/-- A turn of the first machine is answered by one or more turns of the second, all but the last
unseen, after which the states correspond again. -/
def Answered (A : α → α' → Prop) (B : β → β' → Prop) (R : σ → τ → Prop)
    (turn' : τ → Turn α' β' τ) (t : τ) : Turn α β σ → Prop
  | .stop => ∃ k t', Quietly turn' k t t' ∧ turn' t' = .stop
  | .go next => ∃ k t', Quietly turn' (k + 1) t t' ∧ R next t'
  | .act what next => ∃ k t' what' next', Quietly turn' k t t' ∧ turn' t' = .act what' next' ∧
      A what what' ∧ R next next'
  | .test what yes no => ∃ k t' what' yes' no', Quietly turn' k t t' ∧
      turn' t' = .test what' yes' no' ∧ B what what' ∧ R yes yes' ∧ R no no'

theorem Answered.of_quietly {j : Nat} {t₁ : τ} (hQuiet : Quietly turn' j t t₁)
    {first : Turn α β σ} (h : Answered A B R turn' t₁ first) : Answered A B R turn' t first := by
  cases first with
  | stop =>
    obtain ⟨k, t', hk, hStop⟩ := h
    exact ⟨j + k, t', hQuiet.trans hk, hStop⟩
  | go next =>
    obtain ⟨k, t', hk, hR⟩ := h
    exact ⟨j + k, t', hQuiet.trans hk, hR⟩
  | act what next =>
    obtain ⟨k, t', what', next', hk, hRest⟩ := h
    exact ⟨j + k, t', what', next', hQuiet.trans hk, hRest⟩
  | test what yes no =>
    obtain ⟨k, t', what', yes', no', hk, hRest⟩ := h
    exact ⟨j + k, t', what', yes', no', hQuiet.trans hk, hRest⟩

def SameSeen (A : α → α' → Prop) (B : β → β' → Prop) (x : List (Deed α β) × Bool)
    (y : List (Deed α' β') × Bool) : Prop :=
  List.Forall₂ (Deed.Rel A B) x.1 y.1 ∧ x.2 = y.2

/-- What is seen of both machines, turn by turn: nothing before the second gives its answer, and
then either both have stopped or the same is added to what is seen from states that correspond. -/
theorem Answered.exists_next (h : Answered A B R turn' t (turn s)) (o : Outcomes) :
    ∃ k, (∀ m ≤ k, observe turn' m o t = ([], false)) ∧
      (((∀ n, observe turn (n + 1) o s = ([], true)) ∧
          ∀ m, observe turn' (k + (m + 1)) o t = ([], true)) ∨
        ∃ o' s₁ t₁, R s₁ t₁ ∧ ∀ n m, SameSeen A B (observe turn n o' s₁) (observe turn' m o' t₁) →
          SameSeen A B (observe turn (n + 1) o s) (observe turn' (k + (m + 1)) o t)) := by
  cases hs : turn s with
  | stop =>
    rw [hs] at h
    obtain ⟨k, t', hk, hStop⟩ := h
    refine ⟨k, fun m hm => hk.observe_le hm o, .inl ⟨fun n => ?_, fun m => ?_⟩⟩
    · rw [observe, hs]
    · rw [hk.observe_add, observe, hStop]
  | go next =>
    rw [hs] at h
    obtain ⟨k, t', hk, hNext⟩ := h
    refine ⟨k, fun m hm => hk.observe_le (by omega) o, .inr ⟨o, next, t', hNext, fun n m hSeen => ?_⟩⟩
    have hTurns : k + (m + 1) = k + 1 + m := by omega
    rwa [hTurns, hk.observe_add, observe, hs]
  | act what next =>
    rw [hs] at h
    obtain ⟨k, t', what', next', hk, hAct, hWhat, hNext⟩ := h
    refine ⟨k, fun m hm => hk.observe_le hm o, .inr ⟨o, next, next', hNext, fun n m hSeen => ?_⟩⟩
    rw [hk.observe_add, observe, observe, hs, hAct]
    exact ⟨.cons (.act hWhat) hSeen.1, hSeen.2⟩
  | test what yes no =>
    rw [hs] at h
    obtain ⟨k, t', what', yes', no', hk, hTest, hWhat, hYes, hNo⟩ := h
    have hNext : R (if o 0 then yes else no) (if o 0 then yes' else no') := by
      split
      · exact hYes
      · exact hNo
    refine ⟨k, fun m hm => hk.observe_le hm o, .inr ⟨o.tail, _, _, hNext, fun n m hSeen => ?_⟩⟩
    rw [hk.observe_add, observe, observe, hs, hTest]
    exact ⟨.cons (.test hWhat) hSeen.1, hSeen.2⟩

section

variable (hR : ∀ s t, R s t → (Rests turn s ∧ Rests turn' t) ∨ Answered A B R turn' t (turn s))

include hR

theorem exists_observe_of_observe (n : Nat) (o : Outcomes) (h : R s t) :
    ∃ m, SameSeen A B (observe turn n o s) (observe turn' m o t) := by
  induction n generalizing o s t with
  | zero => exact ⟨0, .nil, rfl⟩
  | succ n ih =>
    rcases hR s t h with ⟨hs, ht⟩ | hTurn
    · obtain ⟨m, hNil, hNil', hStopped⟩ := hs.exists_observe ht (n + 1) o
      refine ⟨m, ?_, hStopped⟩
      rw [hNil, hNil']
      exact .nil
    obtain ⟨k, -, ⟨hStop, hStop'⟩ | ⟨o', s₁, t₁, hNext, hSeen⟩⟩ := hTurn.exists_next o
    · refine ⟨k + (0 + 1), ?_⟩
      rw [hStop, hStop']
      exact ⟨.nil, rfl⟩
    · obtain ⟨m, hm⟩ := ih o' hNext
      exact ⟨k + (m + 1), hSeen n m hm⟩

/-- The second machine makes at least one turn for each of the first, so nothing it shows is left
unmatched: the induction is on its turns. -/
theorem exists_observe_of_observe' (m : Nat) (o : Outcomes) (h : R s t) :
    ∃ n, SameSeen A B (observe turn n o s) (observe turn' m o t) := by
  induction m using Nat.strongRecOn generalizing o s t with
  | ind m ih =>
    rcases hR s t h with ⟨hs, ht⟩ | hTurn
    · obtain ⟨n, hNil, hNil', hStopped⟩ := ht.exists_observe hs m o
      refine ⟨n, ?_, hStopped.symm⟩
      rw [hNil, hNil']
      exact .nil
    obtain ⟨k, hQuiet, hNext⟩ := hTurn.exists_next o
    rcases Nat.lt_or_ge k m with hm | hm
    · obtain ⟨j, rfl⟩ := Nat.exists_eq_add_of_lt hm
      rw [Nat.add_assoc]
      rcases hNext with ⟨hStop, hStop'⟩ | ⟨o', s₁, t₁, hNext, hSeen⟩
      · refine ⟨0 + 1, ?_⟩
        rw [hStop, hStop']
        exact ⟨.nil, rfl⟩
      · obtain ⟨n, hn⟩ := ih j (by omega) o' hNext
        exact ⟨n + 1, hSeen n j hn⟩
    · refine ⟨0, ?_⟩
      rw [hQuiet m hm]
      exact ⟨.nil, rfl⟩

/-- Machines behave the same when both of them rest, or every turn of the first is answered by the
second. -/
theorem sameDeeds_of_answered (h : R s t) : SameDeeds A B turn turn' s t :=
  fun o => ⟨fun n => exists_observe_of_observe hR n o h,
    fun m => exists_observe_of_observe' hR m o h⟩

end

theorem eq_of_forall₂_rel {ds ds' : List (Deed α β)}
    (h : List.Forall₂ (Deed.Rel Eq Eq) ds ds') : ds = ds' := by
  induction h with
  | nil => rfl
  | cons hDeed _ ih =>
    rw [ih]
    cases hDeed with
    | act h => rw [h]
    | test h => rw [h]

theorem Deed.Rel.flip {d : Deed α β} {d' : Deed α' β'} (h : Deed.Rel A B d d') :
    Deed.Rel (fun a' a => A a a') (fun b' b => B b b') d' d := by
  cases h with
  | act h => exact .act h
  | test h => exact .test h

theorem SameDeeds.flip (h : SameDeeds A B turn turn' s t) :
    SameDeeds (fun a' a => A a a') (fun b' b => B b b') turn' turn t s := by
  have hFlip : ∀ {ds : List (Deed α β)} {ds' : List (Deed α' β')},
      List.Forall₂ (Deed.Rel A B) ds ds' →
      List.Forall₂ (Deed.Rel (fun a' a => A a a') fun b' b => B b b') ds' ds :=
    fun hDeeds => List.Forall₂.flip (hDeeds.imp fun _ _ hRel => hRel.flip)
  intro o
  constructor
  · intro m
    obtain ⟨n, hDeeds, hStopped⟩ := (h o).2 m
    exact ⟨n, hFlip hDeeds, hStopped.symm⟩
  · intro n
    obtain ⟨m, hDeeds, hStopped⟩ := (h o).1 n
    exact ⟨m, hFlip hDeeds, hStopped.symm⟩

section

variable {α'' β'' : Type} {A' : α' → α'' → Prop} {B' : β' → β'' → Prop}

theorem Deed.Rel.comp {d : Deed α β} {d' : Deed α' β'} {d'' : Deed α'' β''} (h : Deed.Rel A B d d')
    (h' : Deed.Rel A' B' d' d'') : Deed.Rel (Relation.Comp A A') (Relation.Comp B B') d d'' := by
  cases h with
  | act ha =>
    cases h' with
    | act ha' => exact .act ⟨_, ha, ha'⟩
  | test hb =>
    cases h' with
    | test hb' => exact .test ⟨_, hb, hb'⟩

theorem SameSeen.comp {x : List (Deed α β) × Bool} {y : List (Deed α' β') × Bool}
    {z : List (Deed α'' β'') × Bool} (h : SameSeen A B x y) (h' : SameSeen A' B' y z) :
    SameSeen (Relation.Comp A A') (Relation.Comp B B') x z := by
  obtain ⟨hDeeds, hStopped⟩ := h
  obtain ⟨hDeeds', hStopped'⟩ := h'
  refine ⟨?_, hStopped.trans hStopped'⟩
  generalize x.1 = xs, y.1 = ys, z.1 = zs at hDeeds hDeeds' ⊢
  induction hDeeds generalizing zs with
  | nil =>
    cases hDeeds'
    exact .nil
  | cons hRel _ ih =>
    cases hDeeds' with
    | cons hRel' hRest' => exact .cons (hRel.comp hRel') (ih _ hRest')

theorem SameDeeds.comp {υ : Type} {turn'' : υ → Turn α'' β'' υ} {u : υ}
    (h : SameDeeds A B turn turn' s t) (h' : SameDeeds A' B' turn' turn'' t u) :
    SameDeeds (Relation.Comp A A') (Relation.Comp B B') turn turn'' s u := by
  intro o
  constructor
  · intro n
    obtain ⟨m, hSeen⟩ := (h o).1 n
    obtain ⟨k, hSeen'⟩ := (h' o).1 m
    exact ⟨k, SameSeen.comp hSeen hSeen'⟩
  · intro k
    obtain ⟨m, hSeen'⟩ := (h' o).2 k
    obtain ⟨n, hSeen⟩ := (h o).2 m
    exact ⟨n, SameSeen.comp hSeen hSeen'⟩

end

theorem not_sameDeeds_of_length {m : Nat} {o : Outcomes} (hn : (observe turn n o s).2 = true)
    (hm : (observe turn' m o t).2 = true)
    (hLength : (observe turn n o s).1.length ≠ (observe turn' m o t).1.length) :
    ¬ SameDeeds A B turn turn' s t := by
  intro h
  obtain ⟨k, hDeeds, hStopped⟩ := (h o).1 n
  have hk : (observe turn' k o t).2 = true := hStopped.symm.trans hn
  have hSame : observe turn' k o t = observe turn' m o t := by
    rcases Nat.le_total k m with hkm | hkm
    · exact (observe_of_stopped hk hkm).symm
    · exact observe_of_stopped hm hkm
  rw [hSame] at hDeeds
  exact hLength hDeeds.length_eq

def Shown (turn : σ → Turn α β σ) (s : σ) (d : Deed α β) : Prop :=
  ∃ n o, d ∈ (observe turn n o s).1

theorem SameDeeds.imp_of_shown {A' : α → α' → Prop} {B' : β → β' → Prop}
    (h : SameDeeds A B turn turn' s t)
    (hA : ∀ a a', Shown turn s (.act a) → Shown turn' t (.act a') → A a a' → A' a a')
    (hB : ∀ b b', Shown turn s (.test b) → Shown turn' t (.test b') → B b b' → B' b b') :
    SameDeeds A' B' turn turn' s t := by
  have hImp : ∀ {ds : List (Deed α β)} {ds' : List (Deed α' β')},
      List.Forall₂ (Deed.Rel A B) ds ds' → (∀ d ∈ ds, Shown turn s d) →
      (∀ d ∈ ds', Shown turn' t d) → List.Forall₂ (Deed.Rel A' B') ds ds' := by
    intro ds ds' hDeeds hShown hShown'
    induction hDeeds with
    | nil => exact .nil
    | cons hRel _ ih =>
      obtain ⟨hd, hShown⟩ := List.forall_mem_cons.mp hShown
      obtain ⟨hd', hShown'⟩ := List.forall_mem_cons.mp hShown'
      refine .cons ?_ (ih hShown hShown')
      cases hRel with
      | act ha => exact .act (hA _ _ hd hd' ha)
      | test hb => exact .test (hB _ _ hd hd' hb)
  intro o
  constructor
  · intro n
    obtain ⟨m, hDeeds, hStopped⟩ := (h o).1 n
    exact ⟨m, hImp hDeeds (fun d hd => ⟨n, o, hd⟩) fun d hd => ⟨m, o, hd⟩, hStopped⟩
  · intro m
    obtain ⟨n, hDeeds, hStopped⟩ := (h o).2 m
    exact ⟨n, hImp hDeeds (fun d hd => ⟨n, o, hd⟩) fun d hd => ⟨m, o, hd⟩, hStopped⟩

theorem SameDeeds.imp {A' : α → α' → Prop} {B' : β → β' → Prop}
    (h : SameDeeds A B turn turn' s t) (hA : ∀ a a', A a a' → A' a a')
    (hB : ∀ b b', B b b' → B' b b') : SameDeeds A' B' turn turn' s t :=
  h.imp_of_shown (fun a a' _ _ => hA a a') fun b b' _ _ => hB b b'

end

end BatchCompiler.Meaning
