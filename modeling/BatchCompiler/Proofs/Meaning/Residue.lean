import BatchCompiler.Proofs.Meaning.Observation

/-!
# What is left to do

Two machines that behave the same still do so after the same deeds. The first deed of one of them is
the first deed of the other, and both rest or neither does.
-/

namespace BatchCompiler.Meaning

def Outcomes.cons (b : Bool) (o : Outcomes) : Outcomes
  | 0 => b
  | n + 1 => o n

section

variable {α β σ τ : Type} {turn : σ → Turn α β σ} {turn' : τ → Turn α β τ} {n : Nat} {o : Outcomes}
  {s next yes no : σ} {t next' yes' no' : τ} {d : Deed α β} {what what' : α}

/-- For some outcome of a test, the turn leads from the one state to the other. -/
inductive Leads (turn : σ → Turn α β σ) : σ → σ → Prop where
  | go {s next : σ} (h : turn s = .go next) : Leads turn s next
  | act {s next : σ} {what : α} (h : turn s = .act what next) : Leads turn s next
  | yes {s yes no : σ} {what : β} (h : turn s = .test what yes no) : Leads turn s yes
  | no {s yes no : σ} {what : β} (h : turn s = .test what yes no) : Leads turn s no

abbrev Reaches (turn : σ → Turn α β σ) : σ → σ → Prop :=
  Relation.ReflTransGen (Leads turn)

inductive Opens (turn : σ → Turn α β σ) : σ → Deed α β → Prop where
  | go {s next : σ} {d : Deed α β} (h : turn s = .go next) (hNext : Opens turn next d) :
    Opens turn s d
  | act {s next : σ} {what : α} (h : turn s = .act what next) : Opens turn s (.act what)
  | test {s yes no : σ} {what : β} (h : turn s = .test what yes no) : Opens turn s (.test what)

theorem opens_of_observe {ds : List (Deed α β)} (h : (observe turn n o s).1 = d :: ds) :
    Opens turn s d := by
  induction n generalizing s with
  | zero => cases h
  | succ n ih =>
    rw [observe] at h
    cases hs : turn s with
    | stop =>
      rw [hs] at h
      cases h
    | go next =>
      rw [hs] at h
      exact .go hs (ih h)
    | act what next =>
      rw [hs] at h
      cases h
      exact .act hs
    | test what yes no =>
      rw [hs] at h
      cases h
      exact .test hs

theorem Opens.exists_observe (h : Opens turn s d) (o : Outcomes) :
    ∃ n, (observe turn n o s).1 = [d] := by
  induction h with
  | go hs _ ih =>
    obtain ⟨n, hn⟩ := ih
    refine ⟨n + 1, ?_⟩
    rw [observe, hs]
    exact hn
  | act hs | test hs =>
    refine ⟨1, ?_⟩
    rw [observe, hs]
    rfl

theorem rests_of_observe (h : observe turn n o s = ([], true)) : Rests turn s := by
  induction n generalizing s with
  | zero => cases h
  | succ n ih =>
    rw [observe] at h
    cases hs : turn s with
    | stop => exact ⟨0, s, .zero, hs⟩
    | go next =>
      rw [hs] at h
      obtain ⟨k, s', hk, hStop⟩ := ih h
      exact ⟨k + 1, s', .succ hs hk, hStop⟩
    | act what next | test what yes no =>
      rw [hs] at h
      cases h

theorem Rests.of_quietly {j : Nat} {s₁ : σ} (hQuiet : Quietly turn j s s₁) (h : Rests turn s₁) :
    Rests turn s := by
  obtain ⟨k, s', hk, hStop⟩ := h
  exact ⟨j + k, s', hQuiet.trans hk, hStop⟩

theorem Rests.of_leads (h : Rests turn s) (hLeads : Leads turn s next) :
    turn s = .go next ∧ Rests turn next := by
  obtain ⟨k, s', hk, hStop⟩ := h
  cases hk with
  | zero => cases hLeads <;> simp_all
  | succ hs hRest =>
    cases hLeads with
    | go h =>
      obtain rfl := Turn.go.inj (hs.symm.trans h)
      exact ⟨h, _, s', hRest, hStop⟩
    | act h | yes h | no h => cases hs.symm.trans h

theorem sameDeeds_eq_iff : SameDeeds Eq Eq turn turn' s t ↔
    ∀ o, (∀ n, ∃ m, observe turn n o s = observe turn' m o t) ∧
      ∀ m, ∃ n, observe turn n o s = observe turn' m o t := by
  have hEq : ∀ x y : List (Deed α β) × Bool,
      (List.Forall₂ (Deed.Rel Eq Eq) x.1 y.1 ∧ x.2 = y.2) ↔ x = y := by
    intro x y
    constructor
    · rintro ⟨hDeeds, hStopped⟩
      exact Prod.ext (eq_of_forall₂_rel hDeeds) hStopped
    · rintro rfl
      refine ⟨List.forall₂_same.mpr fun d _ => ?_, rfl⟩
      cases d with
      | act what => exact .act rfl
      | test what => exact .test rfl
  simp only [SameDeeds, hEq]

theorem SameDeeds.symm (h : SameDeeds Eq Eq turn turn' s t) : SameDeeds Eq Eq turn' turn t s := by
  rw [sameDeeds_eq_iff] at h ⊢
  intro o
  constructor
  · intro n
    obtain ⟨m, hm⟩ := (h o).2 n
    exact ⟨m, hm.symm⟩
  · intro m
    obtain ⟨n, hn⟩ := (h o).1 m
    exact ⟨n, hn.symm⟩

theorem SameDeeds.opens (h : SameDeeds Eq Eq turn turn' s t) (hd : Opens turn' t d) :
    Opens turn s d := by
  let o : Outcomes := fun _ => false
  obtain ⟨m, hm⟩ := hd.exists_observe o
  obtain ⟨n, hn⟩ := (sameDeeds_eq_iff.mp h o).2 m
  rw [← hn] at hm
  exact opens_of_observe hm

theorem SameDeeds.rests (h : SameDeeds Eq Eq turn turn' s t) (ht : Rests turn' t) :
    Rests turn s := by
  let o : Outcomes := fun _ => false
  obtain ⟨k, t', hk, hStop⟩ := ht
  obtain ⟨n, hn⟩ := (sameDeeds_eq_iff.mp h o).2 (k + 1)
  rw [observe_of_rests hk hStop, decide_eq_true (Nat.lt_succ_self k)] at hn
  exact rests_of_observe hn

theorem SameDeeds.of_go (h : SameDeeds Eq Eq turn turn' s t) (hs : turn s = .go next) :
    SameDeeds Eq Eq turn turn' next t := by
  have hSucc : ∀ n o, observe turn (n + 1) o s = observe turn n o next := by
    intro n o
    rw [observe, hs]
  rw [sameDeeds_eq_iff] at h ⊢
  intro o
  constructor
  · intro n
    obtain ⟨m, hm⟩ := (h o).1 (n + 1)
    exact ⟨m, by rw [← hSucc, hm]⟩
  · intro m
    obtain ⟨n, hn⟩ := (h o).2 m
    cases n with
    | zero => exact ⟨0, hn⟩
    | succ n => exact ⟨n, by rw [← hSucc, hn]⟩

theorem SameDeeds.of_quietly {k : Nat} {s' : σ} (h : SameDeeds Eq Eq turn turn' s t)
    (hQuiet : Quietly turn k s s') : SameDeeds Eq Eq turn turn' s' t := by
  induction hQuiet with
  | zero => exact h
  | succ hs _ ih => exact ih (h.of_go hs)

theorem SameDeeds.exists_of_shown {o' : Outcomes} {d' : Deed α β}
    (h : SameDeeds Eq Eq turn turn' s t)
    (hs : ∀ n, observe turn (n + 1) o s = (d :: (observe turn n o' next).1, (observe turn n o' next).2))
    (ht : ∀ m, observe turn' (m + 1) o t =
      (d' :: (observe turn' m o' next').1, (observe turn' m o' next').2)) (n : Nat) :
    ∃ m, observe turn n o' next = observe turn' m o' next' := by
  obtain ⟨m, hm⟩ := (sameDeeds_eq_iff.mp h o).1 (n + 1)
  rw [hs] at hm
  cases m with
  | zero => cases hm
  | succ m =>
    rw [ht] at hm
    obtain ⟨hDeeds, hStopped⟩ := Prod.mk.inj hm
    exact ⟨m, Prod.ext (List.cons.inj hDeeds).2 hStopped⟩

theorem SameDeeds.of_act (h : SameDeeds Eq Eq turn turn' s t) (hs : turn s = .act what next)
    (ht : turn' t = .act what' next') : SameDeeds Eq Eq turn turn' next next' := by
  refine sameDeeds_eq_iff.mpr fun o => ?_
  have hShown : ∀ n, observe turn (n + 1) o s = _ := fun n => by rw [observe, hs]
  have hShown' : ∀ m, observe turn' (m + 1) o t = _ := fun m => by rw [observe, ht]
  refine ⟨h.exists_of_shown hShown hShown', fun m => ?_⟩
  obtain ⟨n, hn⟩ := h.symm.exists_of_shown hShown' hShown m
  exact ⟨n, hn.symm⟩

theorem SameDeeds.of_test {what what' : β} (h : SameDeeds Eq Eq turn turn' s t)
    (hs : turn s = .test what yes no) (ht : turn' t = .test what' yes' no') (b : Bool) :
    SameDeeds Eq Eq turn turn' (if b then yes else no) (if b then yes' else no') := by
  refine sameDeeds_eq_iff.mpr fun o => ?_
  have hShown : ∀ n, observe turn (n + 1) (o.cons b) s = _ := fun n => by rw [observe, hs]
  have hShown' : ∀ m, observe turn' (m + 1) (o.cons b) t = _ := fun m => by rw [observe, ht]
  refine ⟨h.exists_of_shown hShown hShown', fun m => ?_⟩
  obtain ⟨n, hn⟩ := h.symm.exists_of_shown hShown' hShown m
  exact ⟨n, hn.symm⟩

end

end BatchCompiler.Meaning
