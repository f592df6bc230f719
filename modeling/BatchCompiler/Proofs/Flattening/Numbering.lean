import BatchCompiler.Proofs.Flattening.Recasting
import BatchCompiler.Proofs.Scope.Interleaving
import Mathlib.Data.List.Nodup
import Mathlib.Data.List.Perm.Subperm

/-!
# The numbers of temporaries

Temporaries are numbered without gaps. The top level counts from zero, and a function goes on from
where the top level stands when the function is flattened. What a function becomes depends on that
number by a shift of its temporaries only.
-/

namespace BatchCompiler

open Syntax.Flattening

variable {stem x : String} {s : Scope}

theorem le_length_of_covered {taken : List String} {counter n : Nat}
    (h : ∀ j, counter ≤ j → j < n → stem ++ Number.natText j ∈ taken) :
    n - counter ≤ taken.length := by
  let names := (List.range' counter (n - counter)).map fun j => stem ++ Number.natText j
  have hNodup : names.Nodup := by
    refine List.Nodup.map (fun i j hij => ?_) (List.nodup_range' 1)
    exact Number.append_natText_injective hij
  have hSubset : names ⊆ taken := by
    intro x hx
    obtain ⟨j, hj, rfl⟩ := List.mem_map.mp hx
    rw [List.mem_range'_1] at hj
    exact h j hj.1 (by omega)
  have hLength := (hNodup.subperm hSubset).length_le
  rwa [List.length_map, List.length_range'] at hLength

namespace Scope

theorem freeNumber_eq {taken : List String} {counter n : Nat} (hLe : counter ≤ n)
    (hTaken : ∀ j, counter ≤ j → j < n → stem ++ Number.natText j ∈ taken)
    (hFree : stem ++ Number.natText n ∉ taken) : freeNumber stem taken counter = n := by
  have hBound := le_length_of_covered hTaken
  have hFind : ((List.range (taken.length + 1)).find? fun k =>
      !taken.contains (stem ++ Number.natText (counter + k))) = some (n - counter) := by
    rw [List.find?_range_eq_some, Nat.add_sub_cancel' hLe]
    refine ⟨by simpa using hFree, List.mem_range.mpr (by omega), fun j hj => ?_⟩
    simpa using hTaken (counter + j) (by omega) (by omega)
  unfold freeNumber
  rw [hFind]
  exact Nat.add_sub_cancel' hLe

def names (symbols : List Symbol) : List String := symbols.map Symbol.name

structure Numbered (s : Scope) (low high : Nat) : Prop where
  mem_iff : ∀ n, temporaryName n ∈ names s.symbols ↔ low ≤ n ∧ n < high
  counter_le : s.counter ≤ high

theorem Plain.numbered (h : s.Plain) (k : Nat) : s.Numbered k k := by
  refine ⟨fun n => ⟨fun hn => ?_, fun hn => by omega⟩, h.counter ▸ Nat.zero_le k⟩
  obtain ⟨x, hx, hName⟩ := List.mem_map.mp hn
  have hFree := h.free x hx
  have hLead : temporaryName n =
      Syntax.Parser.reservedLead ++ ("t" ++ Number.natText n) := by
    rw [← String.append_assoc]
    rfl
  rw [hName, hLead, Text.startsWith_append] at hFree
  cases hFree

section

variable {s : Scope} {outer : List Symbol} {low high : Nat}

theorem fresh_eq {n : Nat}
    (hNumber : freeNumber temporaryLead ((s.symbols ++ outer).map Symbol.name) s.counter = n)
    (hNew : s.find? (temporaryName n) = none) :
    s.fresh outer temporaryLead = (temporaryName n,
      { s with
        symbols := { name := temporaryName n, kind := .temporary } :: s.symbols, counter := n + 1 }) := by
  have hDeclare : (s.declare { name := temporaryName n, kind := .temporary }).2 =
      { s with symbols := { name := temporaryName n, kind := .temporary } :: s.symbols } := by
    rw [declare, hNew]
  rw [Scope.fresh, hNumber]
  exact congrArg (fun scope : Scope => (temporaryName n, { scope with counter := n + 1 })) hDeclare

theorem Numbered.freeNumber_eq_high (h : s.Numbered low high) (hLe : low ≤ high)
    (hOuter : ∀ n, temporaryName n ∈ names outer ↔ n < low) :
    freeNumber temporaryLead ((s.symbols ++ outer).map Symbol.name) s.counter = high := by
  have hMem : ∀ n, temporaryName n ∈ (s.symbols ++ outer).map Symbol.name ↔ n < high := by
    intro n
    have hOwn := h.mem_iff n
    have hAround := hOuter n
    unfold names at hOwn hAround
    rw [List.map_append, List.mem_append, hOwn, hAround]
    omega
  exact freeNumber_eq h.counter_le (fun j _ hj => (hMem j).mpr hj)
    (fun hTaken => Nat.lt_irrefl high ((hMem high).mp hTaken))

theorem Numbered.find?_eq_none (h : s.Numbered low high) :
    s.find? (temporaryName high) = none := by
  rw [find?, List.find?_eq_none]
  intro x hx hName
  have hTaken := (h.mem_iff high).mp (List.mem_map.mpr ⟨x, hx, by simpa using hName⟩)
  omega

theorem Numbered.fresh (h : s.Numbered low high) (hLe : low ≤ high)
    (hOuter : ∀ n, temporaryName n ∈ names outer ↔ n < low) :
    (s.fresh outer temporaryLead).1 = temporaryName high ∧
      (s.fresh outer temporaryLead).2.Numbered low (high + 1) := by
  rw [fresh_eq (h.freeNumber_eq_high hLe hOuter) h.find?_eq_none]
  refine ⟨rfl, fun n => ?_, Nat.le_refl _⟩
  have hOwn := h.mem_iff n
  unfold names at hOwn ⊢
  rw [List.map_cons, List.mem_cons, hOwn]
  constructor
  · rintro (hName | hn)
    · have hSame := temporaryName_injective hName
      omega
    · omega
  · intro hn
    rcases Nat.lt_or_ge n high with hLt | hGe
    · exact .inr ⟨hn.1, hLt⟩
    · have hSame : n = high := by omega
      exact .inl (congrArg temporaryName hSame)

end

end Scope

namespace ScopeTable

variable {name other : String} {t : ScopeTable} {k : Nat}

/-- The temporaries of a region are those numbered from `low` up to `high`, and those around it are
the ones below. -/
structure Numbered (t : ScopeTable) (r : Region) (low high : Nat) : Prop where
  scope : ∃ s, t.scope? r = some s ∧ s.Numbered low high
  outer : ∀ n, temporaryName n ∈ Scope.names (t.outer r) ↔ n < low
  le : low ≤ high

theorem outer_setScope (t : ScopeTable) (r : Region) (s : Scope) :
    (t.setScope r s).outer r = t.outer r := by
  cases r <;> rfl

theorem find?_map_replace_of_ne (fs : List Scope) (hName : s.name = name) (hOther : other ≠ name) :
    (fs.map fun f => if f.name == name then s else f).find? (fun f => f.name == other) =
      fs.find? fun f => f.name == other := by
  induction fs with
  | nil => rfl
  | cons f rest ih =>
    by_cases hf : f.name = name
    · have hOld : (f.name == other) = false := by simpa [hf] using hOther.symm
      have hNew : (s.name == other) = false := by simpa [hName] using hOther.symm
      rw [List.map_cons, if_pos (by simpa using hf), List.find?_cons, List.find?_cons, hOld, hNew]
      exact ih
    · rw [List.map_cons, if_neg (by simpa using hf), List.find?_cons, List.find?_cons, ih]

theorem functionScope?_setScope_of_ne (t : ScopeTable) (hName : s.name = name)
    (hOther : other ≠ name) :
    (t.setScope (.function name) s).functionScope? other = t.functionScope? other :=
  find?_map_replace_of_ne t.functions hName hOther

theorem Numbered.exists_fresh? {r : Region} {low high : Nat} (h : t.Numbered r low high) :
    ∃ t', t.fresh? r temporaryLead = some (temporaryName high, t') ∧
      t'.Numbered r low (high + 1) := by
  obtain ⟨s, hScope, hNumbered⟩ := h.scope
  obtain ⟨hName, hNext⟩ := hNumbered.fresh h.le h.outer
  have hFits : Fits r (s.fresh (t.outer r) temporaryLead).2 := by
    cases r with
    | top => trivial
    | function name => exact (Scope.declare_name _ _).trans (name_of_functionScope? hScope)
  refine ⟨t.setScope r (s.fresh (t.outer r) temporaryLead).2, ?_, ?_⟩
  · rw [fresh?, hScope, Option.map_some, ← hName]
  · refine ⟨⟨_, scope?_setScope hFits (by rw [hScope]; rfl), hNext⟩, ?_, Nat.le_succ_of_le h.le⟩
    rw [outer_setScope]
    exact h.outer

theorem numbered_top (h : t.top.Numbered 0 k) : t.Numbered .top 0 k :=
  ⟨⟨t.top, rfl, h⟩, fun n => iff_of_false List.not_mem_nil (Nat.not_lt_zero n), Nat.zero_le k⟩

theorem numbered_function (h : t.top.Numbered 0 k) (hScope : t.functionScope? name = some s)
    (hs : s.Plain) : t.Numbered (.function name) k k := by
  refine ⟨⟨s, hScope, hs.numbered k⟩, fun n => ?_, Nat.le_refl k⟩
  rw [outer, h.mem_iff]
  omega

end ScopeTable

namespace Syntax.Flattening

structure RenamesTemporaries (rename : String → String) : Prop where
  injective : Function.Injective rename
  fixes : ∀ x, Text.startsWith temporaryLead x = false → rename x = x
  keeps : ∀ x, Text.startsWith temporaryLead x = true → Text.startsWith temporaryLead (rename x) = true

open Classical in
/-- Counts from `k₂` on what was counted from `k₁` on. Other names of the kind go where no number
leads. -/
noncomputable def shift (k₁ k₂ : Nat) (x : String) : String :=
  if h : ∃ n, k₁ ≤ n ∧ x = temporaryName n then temporaryName (k₂ + (h.choose - k₁))
  else if Text.startsWith temporaryLead x = true then temporaryLead ++ ("." ++ x)
  else x

section

variable (k₁ k₂ : Nat)

theorem shift_temporaryName {k₁ n : Nat} (h : k₁ ≤ n) :
    shift k₁ k₂ (temporaryName n) = temporaryName (k₂ + (n - k₁)) := by
  have hSome : ∃ m, k₁ ≤ m ∧ temporaryName n = temporaryName m := ⟨n, h, rfl⟩
  rw [shift, dif_pos hSome, temporaryName_injective hSome.choose_spec.2.symm]

theorem shift_of_free (h : Text.startsWith temporaryLead x = false) : shift k₁ k₂ x = x := by
  have hNone : ¬∃ n, k₁ ≤ n ∧ x = temporaryName n := by
    rintro ⟨n, -, rfl⟩
    rw [startsWith_temporaryName] at h
    cases h
  rw [shift, dif_neg hNone, if_neg (by rw [h]; decide)]

theorem shift_cases (h : Text.startsWith temporaryLead x = true) :
    (∃ n, k₁ ≤ n ∧ x = temporaryName n ∧ shift k₁ k₂ x = temporaryName (k₂ + (n - k₁))) ∨
      shift k₁ k₂ x = temporaryLead ++ ("." ++ x) := by
  by_cases hSome : ∃ n, k₁ ≤ n ∧ x = temporaryName n
  · obtain ⟨n, hn, rfl⟩ := hSome
    exact .inl ⟨n, hn, rfl, shift_temporaryName k₂ hn⟩
  · exact .inr (by rw [shift, dif_neg hSome, if_pos h])

theorem temporaryName_ne (n : Nat) (x : String) : temporaryName n ≠ temporaryLead ++ ("." ++ x) := by
  intro h
  have hChars : (Number.natText n).toList = '.' :: x.toList := by
    simpa [temporaryName] using congrArg String.toList h
  have hMem : '.' ∈ (Number.natText n).toList := hChars ▸ List.mem_cons_self
  have hPart := Text.isNamePart_of_mem_natText hMem
  revert hPart
  decide

theorem startsWith_shift (h : Text.startsWith temporaryLead x = true) :
    Text.startsWith temporaryLead (shift k₁ k₂ x) = true := by
  rcases shift_cases k₁ k₂ h with ⟨n, _, _, hShift⟩ | hShift
  · rw [hShift]
    exact startsWith_temporaryName _
  · rw [hShift]
    exact Text.startsWith_append _ _

theorem eq_of_shift_eq {y : String} (hx : Text.startsWith temporaryLead x = true)
    (hy : Text.startsWith temporaryLead y = true) (h : shift k₁ k₂ x = shift k₁ k₂ y) : x = y := by
  rcases shift_cases k₁ k₂ hx with ⟨m, hm, rfl, hShift⟩ | hShift
  · rcases shift_cases k₁ k₂ hy with ⟨n, hn, rfl, hShift'⟩ | hShift'
    · have hNumbers := temporaryName_injective (hShift ▸ hShift' ▸ h)
      rw [show m = n by omega]
    · exact absurd (hShift ▸ hShift' ▸ h) (temporaryName_ne _ _)
  · rcases shift_cases k₁ k₂ hy with ⟨n, hn, rfl, hShift'⟩ | hShift'
    · exact absurd (hShift ▸ hShift' ▸ h).symm (temporaryName_ne _ _)
    · rw [hShift, hShift'] at h
      have hChars := congrArg String.toList h
      simp only [String.toList_append, List.append_cancel_left_eq] at hChars
      exact String.toList_inj.mp hChars

theorem renamesTemporaries_shift : RenamesTemporaries (shift k₁ k₂) := by
  refine ⟨fun x y h => ?_, fun x hx => shift_of_free k₁ k₂ hx, fun x hx => startsWith_shift k₁ k₂ hx⟩
  cases hx : Text.startsWith temporaryLead x with
  | true =>
    cases hy : Text.startsWith temporaryLead y with
    | true => exact eq_of_shift_eq k₁ k₂ hx hy h
    | false =>
      have hLead := startsWith_shift k₁ k₂ hx
      rw [h, shift_of_free k₁ k₂ hy, hy] at hLead
      cases hLead
  | false =>
    cases hy : Text.startsWith temporaryLead y with
    | true =>
      have hLead := startsWith_shift k₁ k₂ hy
      rw [← h, shift_of_free k₁ k₂ hx, hx] at hLead
      cases hLead
    | false => rwa [shift_of_free k₁ k₂ hx, shift_of_free k₁ k₂ hy] at h

end

/-- Two tables whose temporaries in a region are counted from different numbers. -/
noncomputable def counting (r : Region) (k₁ k₂ : Nat) : Supply (.ofNames (shift k₁ k₂)) where
  Alike region t u := region = r ∧ ∃ m, t.Numbered r k₁ (k₁ + m) ∧ u.Numbered r k₂ (k₂ + m)
  next := by
    rintro _ t u ⟨rfl, m, ht, hu⟩
    obtain ⟨t', hFresh, ht'⟩ := ht.exists_fresh?
    obtain ⟨u', hFresh', hu'⟩ := hu.exists_fresh?
    refine .inr ⟨_, t', u', hFresh, ?_, rfl, m + 1, ht', hu'⟩
    have hName : shift k₁ k₂ (temporaryName (k₁ + m)) = temporaryName (k₂ + m) := by
      rw [shift_temporaryName k₂ (Nat.le_add_right _ _), Nat.add_sub_cancel_left]
    rw [hFresh', ← hName]
    rfl

def atTopLevel (functions : List Scope) : Supply (.ofNames id) where
  Alike region t u := region = .top ∧ u.top = t.top ∧ t.functions = functions ∧
    ∃ k, t.top.Numbered 0 k
  next := by
    rintro _ t u ⟨rfl, hTop, hFunctions, k, hk⟩
    have hNext := (hk.fresh (Nat.zero_le k) (ScopeTable.numbered_top hk).outer).2
    refine .inr ⟨(t.top.fresh [] temporaryLead).1, { t with top := (t.top.fresh [] temporaryLead).2 },
      { u with top := (u.top.fresh [] temporaryLead).2 }, rfl, ?_, rfl, ?_, hFunctions, k + 1, hNext⟩
    · rw [← hTop]
      rfl
    · rw [hTop]

def inFunction (name : String) (start : ScopeTable) : Supply (.ofNames id) where
  Alike region t u := region = .function name ∧ u = t ∧ t.top = start.top ∧
    ∀ other, other ≠ name → t.functionScope? other = start.functionScope? other
  next := by
    rintro _ t u ⟨rfl, rfl, hTop, hOthers⟩
    cases hScope : u.functionScope? name with
    | none =>
      have hNone : u.fresh? (.function name) temporaryLead = none := by
        rw [ScopeTable.fresh?, ScopeTable.scope?, hScope]
        rfl
      exact .inl ⟨hNone, hNone⟩
    | some s =>
      have hFresh : u.fresh? (.function name) temporaryLead =
          some ((s.fresh u.top.symbols temporaryLead).1,
            u.setScope (.function name) (s.fresh u.top.symbols temporaryLead).2) := by
        rw [ScopeTable.fresh?, ScopeTable.scope?, hScope]
        rfl
      have hName : (s.fresh u.top.symbols temporaryLead).2.name = name :=
        (Scope.declare_name _ _).trans (ScopeTable.name_of_functionScope? hScope)
      refine .inr ⟨_, _, _, hFresh, hFresh, rfl, rfl, hTop, fun other hOther => ?_⟩
      rw [ScopeTable.functionScope?_setScope_of_ne _ hName hOther, hOthers other hOther]

end Syntax.Flattening

end BatchCompiler
