import BatchCompiler.Proofs.Text.Spelling
import BatchCompiler.Settings.Flag

/-!
# Flags as patches

A flag sets some features or warnings to values that do not depend on the settings it finds. So a
list of flags is one patch, and a patch that was made already changes nothing.
-/

namespace BatchCompiler.Settings

open Text

structure Patch where
  feature : Feature → Option Bool := fun _ => none
  warning : Warning → Option Bool := fun _ => none

namespace Patch

def apply (p : Patch) (s : Settings) : Settings :=
  { s with
    feature := fun f => (p.feature f).getD (s.feature f)
    warning := fun w => (p.warning w).getD (s.warning w) }

def andThen (p q : Patch) : Patch where
  feature f := q.feature f <|> p.feature f
  warning w := q.warning w <|> p.warning w

theorem apply_andThen (p q : Patch) (s : Settings) :
    (p.andThen q).apply s = q.apply (p.apply s) := by
  simp only [apply, andThen, Settings.mk.injEq, and_true]
  constructor
  · funext f
    cases q.feature f <;> rfl
  · funext w
    cases q.warning w <;> rfl

theorem apply_apply (p : Patch) (s : Settings) : p.apply (p.apply s) = p.apply s := by
  simp only [apply, Settings.mk.injEq, and_true]
  constructor
  · funext f
    cases p.feature f <;> rfl
  · funext w
    cases p.warning w <;> rfl

theorem andThen_assoc (p q r : Patch) : (p.andThen q).andThen r = p.andThen (q.andThen r) := by
  simp only [andThen, Patch.mk.injEq]
  constructor
  · funext f
    cases r.feature f <;> rfl
  · funext w
    cases r.warning w <;> rfl

end Patch

namespace Patch

def ofFeature (f : Feature) (on : Bool) : Patch where
  feature g := if g = f then some on else none

def ofWarning (w : Warning) (on : Bool) : Patch where
  warning v := if v = w then some on else none

def ofAllWarnings (on : Bool) : Patch where
  warning v := if v = .pedantic then none else some on

theorem apply_ofFeature (s : Settings) (f : Feature) (on : Bool) :
    (ofFeature f on).apply s = s.setFeature f on := by
  simp only [apply, ofFeature, setFeature, Option.getD_none, Settings.mk.injEq, and_true]
  funext g
  split <;> rfl

theorem apply_ofWarning (s : Settings) (w : Warning) (on : Bool) :
    (ofWarning w on).apply s = s.setWarning w on := by
  simp only [apply, ofWarning, setWarning, Option.getD_none, Settings.mk.injEq, true_and, and_true]
  funext v
  split <;> rfl

theorem apply_ofAllWarnings (s : Settings) (on : Bool) :
    (ofAllWarnings on).apply s = s.setAllWarnings on := by
  simp only [apply, ofAllWarnings, setAllWarnings, Option.getD_none, Settings.mk.injEq, true_and,
    and_true]
  funext v
  split <;> rfl

end Patch

def Flag.patch? (f : Flag) : Option Patch :=
  if f.isWarning then
    if f.name = "all" then some (.ofAllWarnings f.enable)
    else if f.name = "pedantic" then some (.ofWarning .pedantic true)
    else (Warning.ofName? f.name).map (.ofWarning · f.enable)
  else (Feature.ofName? f.name).map (.ofFeature · f.enable)

theorem applyFlag?_eq (s : Settings) (f : Flag) :
    s.applyFlag? f = f.patch?.map fun p => p.apply s := by
  unfold applyFlag? Flag.patch?
  split
  · split
    · rw [Option.map_some, Patch.apply_ofAllWarnings]
    · split
      · rw [Option.map_some, Patch.apply_ofWarning]
      · simp only [Option.map_map, Function.comp_def, Patch.apply_ofWarning]
  · simp only [Option.map_map, Function.comp_def, Patch.apply_ofFeature]

def patchOf : List String → Patch
  | [] => {}
  | w :: rest => ((Flag.ofText w).patch?.getD {}).andThen (patchOf rest)

theorem patchOf_append (a b : List String) :
    patchOf (a ++ b) = (patchOf a).andThen (patchOf b) := by
  induction a with
  | nil => simp [patchOf, Patch.andThen]
  | cons w rest ih => simp only [List.cons_append, patchOf, ih, Patch.andThen_assoc]

theorem applyWords_eq (s : Settings) (ws : List String) :
    (s.applyWords ws).1 = (patchOf ws).apply s := by
  fun_induction applyWords s ws with
  | case1 s => rfl
  | case2 s w rest s' hFlag ih =>
    obtain ⟨p, hPatch, rfl⟩ := Option.map_eq_some_iff.mp ((applyFlag?_eq s _).symm.trans hFlag)
    rw [ih, patchOf, hPatch, Option.getD_some, Patch.apply_andThen]
  | case3 s w rest hFlag s' unknown hRest ih =>
    have hPatch := Option.map_eq_none_iff.mp ((applyFlag?_eq s _).symm.trans hFlag)
    rw [hRest] at ih
    rw [ih, patchOf, hPatch, Option.getD_none, Patch.apply_andThen]
    rfl

theorem applyWords_again (s : Settings) (ws : List String) :
    ((s.applyWords ws).1.applyWords ws).1 = (s.applyWords ws).1 := by
  simp only [applyWords_eq, Patch.apply_apply]

theorem enable_of_noDirectives {text : String} (hFeature : (Flag.ofText text).isWarning = false)
    (hName : (Flag.ofText text).name = Feature.noDirectives.name) :
    (Flag.ofText text).enable = false := by
  simp only [Flag.ofText] at hFeature hName ⊢
  generalize dropLead "-" text = body at *
  split at hFeature
  · cases hFeature
  · split at hFeature
    · next hWarning hLead =>
      obtain ⟨rest, rfl⟩ := startsWith_iff.mp hLead
      simp only [hWarning, hLead, if_true, dropLead_append] at hName ⊢
      cases hNegated : startsWith "Wno-" ("F" ++ rest) || startsWith "Fno-" ("F" ++ rest) with
      | true => rfl
      | false =>
        obtain rfl : rest = Feature.noDirectives.name := by simpa [hNegated] using hName
        revert hNegated
        decide
    · cases hFeature

theorem feature_patch?_noDirectives {text : String} {p : Patch}
    (h : (Flag.ofText text).patch? = some p) : p.feature .noDirectives ≠ some true := by
  unfold Flag.patch? at h
  split at h
  · split at h
    · cases h
      simp [Patch.ofAllWarnings]
    · split at h
      · cases h
        simp [Patch.ofWarning]
      · obtain ⟨w, _, rfl⟩ := Option.map_eq_some_iff.mp h
        simp [Patch.ofWarning]
  · next hFeature =>
    obtain ⟨f, hName, rfl⟩ := Option.map_eq_some_iff.mp h
    simp only [Patch.ofFeature]
    split
    · next hf =>
      subst hf
      have hSpelled := List.find?_some hName
      simp only [beq_iff_eq] at hSpelled
      have hEnable := enable_of_noDirectives (by simpa using hFeature) hSpelled.symm
      simp [hEnable]
    · simp

theorem feature_patchOf_noDirectives (ws : List String) :
    (patchOf ws).feature .noDirectives ≠ some true := by
  induction ws with
  | nil => simp [patchOf]
  | cons w rest ih =>
    simp only [patchOf, Patch.andThen]
    cases hRest : (patchOf rest).feature .noDirectives with
    | some on =>
      rw [hRest] at ih
      exact ih
    | none =>
      cases hPatch : (Flag.ofText w).patch? with
      | none => simp
      | some p => exact feature_patch?_noDirectives hPatch

theorem feature_noDirectives_apply {s : Settings} (ws : List String)
    (h : s.feature .noDirectives = false) :
    ((patchOf ws).apply s).feature .noDirectives = false := by
  have hNever := feature_patchOf_noDirectives ws
  simp only [Patch.apply, h]
  cases hValue : (patchOf ws).feature .noDirectives with
  | none => rfl
  | some on =>
    cases on with
    | false => rfl
    | true => exact absurd hValue hNever

end BatchCompiler.Settings
