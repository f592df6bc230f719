import BatchCompiler.Proofs.Flattening.Numbering
import Mathlib.Data.Nat.Find
import Mathlib.Data.Option.Defs

/-!
# Scopes under any use

Names are declared and fresh ones are asked for in any order and in any region. Scopes only grow,
they hold no name twice, and a fresh name is new to its region and to the one around it.
-/

namespace BatchCompiler

namespace Scope

variable {s s' : Scope} {stem : String} {taken : List String} {counter : Nat}

/-- Everything that was declared is still there, and nothing is there twice that was not. -/
structure Grows (s s' : Scope) : Prop where
  suffix : s.symbols <:+ s'.symbols
  nodup : (names s.symbols).Nodup → (names s'.symbols).Nodup

theorem Grows.refl (s : Scope) : s.Grows s :=
  ⟨List.suffix_rfl, id⟩

theorem grows_declare (s : Scope) (x : Symbol) : s.Grows (s.declare x).2 := by
  by_cases hx : x.name ∈ s.symbols.map Symbol.name
  · rw [declare_of_mem hx]
    exact .refl s
  · rw [declare_of_notMem hx]
    exact ⟨List.suffix_cons x s.symbols, fun h => List.nodup_cons.mpr ⟨hx, h⟩⟩

theorem find?_of_mem (h : (names s.symbols).Nodup) {x : Symbol} (hx : x ∈ s.symbols) :
    s.find? x.name = some x := by
  obtain ⟨y, hy⟩ := Option.isSome_iff_exists.mp (isSome_find?_iff.mpr (List.mem_map_of_mem hx))
  have hName : y.name = x.name := by simpa using List.find?_some hy
  rw [hy, List.inj_on_of_nodup_map h (List.mem_of_find?_eq_some hy) hx hName]

theorem exists_fresh (s : Scope) (outer : List Symbol) (stem : String) :
    ∃ n, s.counter ≤ n ∧ stem ++ Number.natText n ∉ (s.symbols ++ outer).map Symbol.name ∧
      (∀ j, s.counter ≤ j → j < n → stem ++ Number.natText j ∈ (s.symbols ++ outer).map Symbol.name) ∧
      s.fresh outer stem = (stem ++ Number.natText n,
        { s with
          symbols := { name := stem ++ Number.natText n, kind := .temporary } :: s.symbols
          counter := n + 1 }) := by
  let taken := (s.symbols ++ outer).map Symbol.name
  have hSome : ∃ n, s.counter ≤ n ∧ stem ++ Number.natText n ∉ taken := by
    by_contra hNone
    have hAll : ∀ j, s.counter ≤ j → j < s.counter + taken.length + 1 →
        stem ++ Number.natText j ∈ taken :=
      fun j hj _ => by_contra fun hFree => hNone ⟨j, hj, hFree⟩
    have := le_length_of_covered hAll
    omega
  classical
  obtain ⟨hLe, hFree⟩ := Nat.find_spec hSome
  have hTaken : ∀ j, s.counter ≤ j → j < Nat.find hSome → stem ++ Number.natText j ∈ taken :=
    fun j hj hLt => by_contra fun hFree => Nat.find_min hSome hLt ⟨hj, hFree⟩
  refine ⟨Nat.find hSome, hLe, hFree, hTaken, ?_⟩
  have hOwn : stem ++ Number.natText (Nat.find hSome) ∉ s.symbols.map Symbol.name := fun h =>
    hFree (List.mem_map.mpr ((List.mem_map.mp h).imp fun _ h => ⟨List.mem_append_left _ h.1, h.2⟩))
  rw [fresh, freeNumber_eq hLe hTaken hFree, declare_of_notMem hOwn]

end Scope

namespace ScopeTable

variable {t u v : ScopeTable} {r r' : Region} {s s' : Scope} {stem name : String} {x y : Symbol}
  {log log' : List (Region × String)}

theorem scope?_setScope_of_ne (hFits : Fits r s) (hr : r' ≠ r) :
    (t.setScope r s).scope? r' = t.scope? r' := by
  cases r with
  | top =>
    cases r' with
    | top => exact absurd rfl hr
    | function => rfl
  | function name =>
    cases r' with
    | top => rfl
    | function other =>
      exact functionScope?_setScope_of_ne t hFits fun h => hr (congrArg Region.function h)

def Distinct (t : ScopeTable) : Prop :=
  ∀ r s, t.scope? r = some s → (Scope.names s.symbols).Nodup

def Grows (t u : ScopeTable) : Prop :=
  ∀ r, Option.Rel Scope.Grows (t.scope? r) (u.scope? r)

theorem Grows.refl (t : ScopeTable) : t.Grows t := by
  intro r
  cases t.scope? r with
  | none => exact .none
  | some s => exact .some (.refl s)

theorem Grows.exists (h : t.Grows u) (hs : t.scope? r = some s) :
    ∃ s', u.scope? r = some s' ∧ s.Grows s' := by
  have hr := h r
  rw [hs] at hr
  generalize u.scope? r = found at hr
  cases hr with
  | some hGrows => exact ⟨_, rfl, hGrows⟩

theorem Grows.exists_before (h : t.Grows u) (hs : u.scope? r = some s') :
    ∃ s, t.scope? r = some s ∧ s.Grows s' := by
  have hr := h r
  rw [hs] at hr
  generalize t.scope? r = found at hr
  cases hr with
  | some hGrows => exact ⟨_, rfl, hGrows⟩

theorem Grows.trans (h : t.Grows u) (h' : u.Grows v) : t.Grows v := by
  intro r
  have hr := h r
  have hr' := h' r
  generalize t.scope? r = a, u.scope? r = b, v.scope? r = c at hr hr'
  cases hr with
  | none => exact hr'
  | some hGrows =>
    cases hr' with
    | some hGrows' =>
      exact .some ⟨hGrows.suffix.trans hGrows'.suffix, fun h => hGrows'.nodup (hGrows.nodup h)⟩

theorem Grows.distinct (h : t.Grows u) (ht : t.Distinct) : u.Distinct := by
  intro r s' hs'
  obtain ⟨s, hs, hGrows⟩ := h.exists_before hs'
  exact hGrows.nodup (ht r s hs)

theorem grows_setScope (hs : t.scope? r = some s) (h : s.Grows s') (hName : s'.name = s.name) :
    t.Grows (t.setScope r s') ∧ (t.setScope r s').scope? r = some s' ∧
      ∀ r' ≠ r, (t.setScope r s').scope? r' = t.scope? r' := by
  have hFits : Fits r s' := by
    cases r with
    | top => trivial
    | function name => exact hName.trans (name_of_functionScope? hs)
  have hOwn := scope?_setScope hFits (by rw [hs]; rfl)
  refine ⟨fun r' => ?_, hOwn, fun r' hr => scope?_setScope_of_ne hFits hr⟩
  by_cases hr : r' = r
  · rw [hr, hOwn, hs]
    exact .some h
  · rw [scope?_setScope_of_ne hFits hr]
    exact Grows.refl t r'

theorem grows_declare? (h : t.declare? r x = some (y, u)) : t.Grows u := by
  obtain ⟨s, hs, hEq⟩ := Option.map_eq_some_iff.mp h
  cases hEq
  exact (grows_setScope hs (s.grows_declare x) (s.declare_name x)).1

/-- Asking for a fresh name ends with the first candidate that neither the scope nor the one around
it holds. The scope then holds it as a temporary, and no other scope is changed. -/
structure Mints (t : ScopeTable) (r : Region) (stem name : String) (u : ScopeTable) : Prop where
  grows : t.Grows u
  first : ∃ s n, t.scope? r = some s ∧ s.counter ≤ n ∧ name = stem ++ Number.natText n ∧
    ∀ j, s.counter ≤ j → j < n → (t.lookup? r (stem ++ Number.natText j)).isSome = true
  new : t.lookup? r name = none
  held : ∃ s', u.scope? r = some s' ∧ s'.find? name = some { name := name, kind := .temporary }
  others : ∀ r' ≠ r, u.scope? r' = t.scope? r'

theorem lookup?_isSome_iff (hs : t.scope? r = some s) :
    (t.lookup? r name).isSome = true ↔ name ∈ (s.symbols ++ t.outer r).map Symbol.name := by
  have hOuter : ((t.outer r).find? fun x => x.name == name).isSome = true ↔
      name ∈ (t.outer r).map Symbol.name := by
    simp
  rw [lookup?, hs, List.map_append, List.mem_append, ← hOuter, ← Scope.isSome_find?_iff]
  cases hFound : s.find? name <;> simp [hFound]

theorem mints_fresh? (h : t.fresh? r stem = some (name, u)) : t.Mints r stem name u := by
  obtain ⟨s, hs, hEq⟩ := Option.map_eq_some_iff.mp h
  obtain ⟨n, hLe, hFree, hTaken, hFresh⟩ := s.exists_fresh (t.outer r) stem
  rw [hFresh] at hEq
  cases hEq
  have hNew : stem ++ Number.natText n ∉ s.symbols.map Symbol.name := fun h =>
    hFree (by rw [List.map_append]; exact List.mem_append_left _ h)
  have hScopeGrows : s.Grows
      { s with
        symbols := { name := stem ++ Number.natText n, kind := .temporary } :: s.symbols
        counter := n + 1 } :=
    ⟨List.suffix_cons _ s.symbols, fun h => List.nodup_cons.mpr ⟨hNew, h⟩⟩
  obtain ⟨hGrows, hScope, hOthers⟩ := grows_setScope hs hScopeGrows rfl
  refine ⟨hGrows, ⟨s, n, hs, hLe, rfl, fun j hj hLt => ?_⟩, ?_, ⟨_, hScope, ?_⟩, hOthers⟩
  · exact (lookup?_isSome_iff hs).mpr (hTaken j hj hLt)
  · exact Option.not_isSome_iff_eq_none.mp fun h => hFree ((lookup?_isSome_iff hs).mp h)
  · simp [Scope.find?]

theorem exists_mints (hs : t.scope? r = some s) (stem : String) :
    ∃ name u, t.fresh? r stem = some (name, u) ∧ t.Mints r stem name u := by
  have hFresh : t.fresh? r stem =
      some ((s.fresh (t.outer r) stem).1, t.setScope r (s.fresh (t.outer r) stem).2) := by
    rw [fresh?, hs, Option.map_some]
  exact ⟨_, _, hFresh, mints_fresh? hFresh⟩

/-- Declarations and requests for fresh names, in any order. The log has the fresh names with the
regions that they were asked for in. -/
inductive Uses : ScopeTable → List (Region × String) → ScopeTable → Prop where
  | done (t : ScopeTable) : Uses t [] t
  | declare {t u v : ScopeTable} {r : Region} {x y : Symbol} {log : List (Region × String)}
    (h : t.declare? r x = some (y, u)) (rest : Uses u log v) : Uses t log v
  | fresh {t u v : ScopeTable} {r : Region} {stem name : String} {log : List (Region × String)}
    (h : t.fresh? r stem = some (name, u)) (rest : Uses u log v) : Uses t ((r, name) :: log) v

theorem Uses.grows (h : Uses t log u) : t.Grows u := by
  induction h with
  | done t => exact .refl t
  | declare h _ ih => exact (grows_declare? h).trans ih
  | fresh h _ ih => exact (mints_fresh? h).grows.trans ih

theorem Uses.nodup (h : Uses t log u) :
    log.Nodup ∧ ∀ p ∈ log, ∀ s, t.scope? p.1 = some s → p.2 ∉ Scope.names s.symbols := by
  -- A name of the log is not yet in its scope, because scopes only grow until it is asked for.
  have hBefore : ∀ {t u : ScopeTable}, t.Grows u → ∀ {p : Region × String},
      (∀ s, u.scope? p.1 = some s → p.2 ∉ Scope.names s.symbols) →
      ∀ s, t.scope? p.1 = some s → p.2 ∉ Scope.names s.symbols := by
    intro t u hGrows p hp s hs hMem
    obtain ⟨s', hs', hScope⟩ := hGrows.exists hs
    exact hp s' hs' (hScope.suffix.map Symbol.name |>.mem hMem)
  induction h with
  | done t => exact ⟨.nil, List.forall_mem_nil _⟩
  | declare h _ ih => exact ⟨ih.1, fun p hp => hBefore (grows_declare? h) (ih.2 p hp)⟩
  | @fresh t u v r stem name log h _ ih =>
    have hMints := mints_fresh? h
    obtain ⟨s', hs', hHeld⟩ := hMints.held
    refine ⟨List.nodup_cons.mpr ⟨fun hMem => ?_, ih.1⟩, List.forall_mem_cons.mpr
      ⟨fun s hs hMem => ?_, fun p hp => hBefore hMints.grows (ih.2 p hp)⟩⟩
    · exact ih.2 _ hMem s' hs' (Scope.isSome_find?_iff.mp (by rw [hHeld]; rfl))
    · have hSome := (lookup?_isSome_iff hs).mpr
        (by rw [List.map_append]; exact List.mem_append_left _ hMem)
      rw [hMints.new] at hSome
      cases hSome

/-- Whatever was declared and asked for before: no scope holds a name twice, no two requests in one
region gave the same name, what is declared stays as it is, and every further request is granted. -/
theorem uses_consistent (ht : t.Distinct) (h : Uses t log u) :
    u.Distinct ∧ log.Nodup ∧
    (∀ v log', Uses u log' v → ∀ r s, u.scope? r = some s → ∃ s', v.scope? r = some s' ∧
      ∀ x ∈ s.symbols, s'.find? x.name = some x) ∧
    ∀ r s stem, u.scope? r = some s →
      ∃ name v, u.fresh? r stem = some (name, v) ∧ u.Mints r stem name v := by
  have hDistinct := h.grows.distinct ht
  refine ⟨hDistinct, h.nodup.1, fun v log' hMore r s hs => ?_, fun r s stem hs => exists_mints hs stem⟩
  obtain ⟨s', hs', hGrows⟩ := hMore.grows.exists hs
  exact ⟨s', hs', fun x hx => Scope.find?_of_mem (hGrows.nodup (hDistinct r s hs)) (hGrows.suffix.mem hx)⟩

/-- The first candidate of the function is held around it, and its stems share one counter. -/
theorem uses_consistent_sharedCounter :
    ∃ u, Uses { functions := [{ name := "f" }] }
        [(.function "f", "t1"), (.function "f", "s2"), (.top, "t1")] u ∧
      u.Distinct ∧ [(Region.function "f", "t1"), (.function "f", "s2"), (.top, "t1")].Nodup := by
  have ht : ({ functions := [{ name := "f" }] } : ScopeTable).Distinct := by
    intro r s hs
    cases r with
    | top =>
      cases hs
      exact .nil
    | function name =>
      rw [scope?, functionScope?] at hs
      cases List.mem_singleton.mp (List.mem_of_find?_eq_some hs)
      exact .nil
  have hUses := Uses.declare (show ScopeTable.declare? { functions := [{ name := "f" }] } .top
      { name := "t0", kind := .var } = _ from rfl)
    (.fresh (show fresh? _ (.function "f") "t" = _ from rfl)
      (.fresh (show fresh? _ (.function "f") "s" = _ from rfl)
        (.fresh (show fresh? _ .top "t" = _ from rfl) (.done _))))
  exact ⟨_, hUses, (uses_consistent ht hUses).1, (uses_consistent ht hUses).2.1⟩

end ScopeTable

end BatchCompiler
